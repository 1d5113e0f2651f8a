import XmrigProxy.ReservationLifecycle
import XmrigProxy.ShareReplay

/-! Reservations over whole runs. A submission is reported at once or handed to the
verifier with its reservation, every event moves callbacks and reservations in one way, and
from these moves follows which verdicts find their reservation in the cache. The exception
is a network candidate over its budget whose verification is refused after the share was
built: the share is destroyed with its reservation before the candidate goes upstream. -/
namespace XmrigProxy.ReservationRuns

open GlobalShareCache (Reservation hasHeight held Consistent nextToken)
open ShareVerification (PendingShare Callback System Outcome Config)
open RandomXVerifier (Options)
open ReservationLifecycle VerifierAccounting VerifierAnswers

section Submissions

variable {config : Config} {env : ShareVerification.Env} {key : ℕ} {request : JobResult}
  {submission : Miner.SubmissionReservation} {m : Miner.State} {s : System}
  {options : Options} {job : Miner.TelemetryJob}

/-- Whether a verification request is admitted and written. -/
def takes (options : Options) (venv : RandomXVerifier.Env) (request : RandomXVerifier.Request)
    (v : RandomXVerifier.State Callback) : Bool :=
  RandomXVerifier.admits options request v && v.pipe &&
    decide (venv.write v.nextRequestId = .sent)

theorem verify_fst (options : Options) (venv : RandomXVerifier.Env)
    (request : RandomXVerifier.Request) (callback : Callback)
    (v : RandomXVerifier.State Callback) :
    (RandomXVerifier.verify options venv request (some callback) v).1 =
      takes options venv request v := by
  unfold RandomXVerifier.verify takes
  dsimp only
  cases hadmits : RandomXVerifier.admits options request v with
  | false => rfl
  | true =>
      have hconnected : v.connected = true := by
        simp only [RandomXVerifier.admits, Bool.and_eq_true] at hadmits
        tauto
      cases hpipe : v.pipe with
      | false => simp [RandomXVerifier.sendDocument]
      | true =>
          cases hwrite : venv.write v.nextRequestId <;>
            simp [RandomXVerifier.sendDocument, hconnected, hwrite]

/-- A claimed candidate over its budget whose share is built and then not taken by the
verifier: the share is destroyed although the candidate may still go upstream. -/
def overBudget (options : Options) (venv : RandomXVerifier.Env) (key : ℕ) (request : JobResult)
    (job : Miner.TelemetryJob) (m : Miner.State) (v : RandomXVerifier.State Callback) : Bool :=
  Miner.claimedCandidate request job &&
    !(RandomXVerifier.allowCandidate options venv key v).1 &&
    ShareVerification.verifiable job && !takes options venv
      (ShareVerification.verifyRequest key (ShareVerification.pendingShare request job m {} true))
      (RandomXVerifier.allowCandidate options venv key v).2

/-- Nothing about the pending requests changes. -/
def Steady (s s' : System) : Prop :=
  Undisturbed s.verifier (s'.verifier, ([] : List (RandomXVerifier.Output Callback)))

theorem steady_requests {s' : System} (h : requests s' = requests s) : Steady s s' := by
  simp only [requests, Prod.mk.injEq] at h
  obtain ⟨hpending, howners, hnext, -⟩ := h
  exact ⟨hpending, howners, hnext.ge, fun _ => rfl⟩

theorem Steady.trans {s₁ s₂ s₃ : System} (h : Steady s₁ s₂) (h' : Steady s₂ s₃) :
    Steady s₁ s₃ :=
  ⟨h'.pending.trans h.pending, h'.pendingByOwner.trans h.pendingByOwner,
    le_trans h.nextRequestId h'.nextRequestId, fun _ => rfl⟩

theorem Steady.callbacks {s' : System} (h : Steady s s') :
    ReservationLifecycle.callbacks s'.verifier = ReservationLifecycle.callbacks s.verifier := by
  have hpending : s'.verifier.pending = s.verifier.pending := h.pending
  rw [ReservationLifecycle.callbacks, hpending]
  rfl

theorem cache_forgetSubmission (hm : s.miners.find key = some m)
    (hcomputed : submission.computedGlobal = {}) :
    (ShareVerification.forgetSubmission key submission s).cache =
        GlobalShareCache.release submission.globalShare s.cache ∧
      ∃ m', (ShareVerification.forgetSubmission key submission s).miners.find key = some m' := by
  have hempty : ∀ c : GlobalShareCache.State, GlobalShareCache.release {} c = c := fun _ => rfl
  simp only [ShareVerification.forgetSubmission, hm, Miner.forgetSubmission, hcomputed, hempty]
  refine ⟨?_, _, Table.find_insert_self ..⟩
  split
  · rfl
  · split <;> rfl

/-- A handling of a checked submission that touches no reservation but `g`. -/
structure Touches (g : Reservation) (s s' : System) : Prop where
  consistent : Consistent s'.cache
  sequence : s'.cache.sequence = s.cache.sequence
  buckets : ∀ src h, hasHeight s'.cache src h = hasHeight s.cache src h
  others : ∀ r, r ≠ g → held s'.cache r = held s.cache r
  own : held s'.cache g = true → held s.cache g = true

theorem touches_same {g : Reservation} {s' : System} (hc : Consistent s.cache)
    (hcache : s'.cache = s.cache) : Touches g s s' :=
  ⟨hcache ▸ hc, by simp [hcache], by simp [hcache], by simp [hcache], by simp [hcache]⟩

theorem touches_release {g : Reservation} {s' : System} (hc : Consistent s.cache)
    (hcache : s'.cache = GlobalShareCache.release g s.cache) : Touches g s s' := by
  refine ⟨hcache ▸ GlobalShareCache.consistent_release g hc, ?_, fun src h => ?_, fun r hr => ?_,
    fun hheld => ?_⟩
  · rw [hcache]
    rcases GlobalShareCache.release_cases g s.cache with ⟨-, hsame⟩ | ⟨-, hsequence, -⟩
    · rw [hsame]
    · exact hsequence
  · rw [hcache, GlobalShareCache.hasHeight_release]
  · rw [hcache, GlobalShareCache.held_release]
    simp [hr]
  · rw [hcache, GlobalShareCache.held_release] at hheld
    simp at hheld

theorem Touches.trans {g : Reservation} {s₁ s₂ s₃ : System} (h : Touches g s₁ s₂)
    (h' : Touches g s₂ s₃) : Touches g s₁ s₃ :=
  ⟨h'.consistent, h'.sequence.trans h.sequence,
    fun src k => (h'.buckets src k).trans (h.buckets src k),
    fun r hr => (h'.others r hr).trans (h.others r hr), fun hheld => h.own (h'.own hheld)⟩

/-- The report of a submission that was not handed to the verifier. `kept` tells whether an
accepted share still has its reservation. -/
structure Reported (key : ℕ) (request : JobResult) (g : Reservation) (kept : Bool) (s s' : System)
    (out : List ShareVerification.Observation) : Prop extends Touches g s s' where
  steady : Steady s s'
  outcome : ∃ o : Outcome, out = [.ended o] ∧ o.key = key ∧ o.shareId = request.shareId ∧
    o.daemon = ShareVerification.ofTemplate request.templateSourceId request.height ∧
    o.reservation = g ∧
    (accepted o.verdict = true → o.heldThen = kept ∧ held s'.cache g = kept) ∧
    (failed o.verdict = true → held s'.cache g = false)

theorem Reported.after {g : Reservation} {kept : Bool} {s₁ s₂ s₃ : System}
    {out : List ShareVerification.Observation} (ht : Touches g s₁ s₂) (hsteady : Steady s₁ s₂)
    (h : Reported key request g kept s₂ s₃ out) : Reported key request g kept s₁ s₃ out :=
  ⟨ht.trans h.toTouches, hsteady.trans h.steady, h.outcome⟩

theorem reported_finish {error : Error} {kept : Bool} (hc : Consistent s.cache)
    (hm : s.miners.find key = some m) (hcomputed : submission.computedGlobal = {})
    (hkept : error = .NoError → held s.cache submission.globalShare = kept)
    (herror : error = .CandidateRateLimit → held s.cache submission.globalShare = false) :
    Reported key request submission.globalShare kept s
      (ShareVerification.finishSubmission env key request submission error s).1
      (ShareVerification.finishSubmission env key request submission error s).2 := by
  have hanswer : ∀ e, (if error = .NoError then (env.dispatch request).error else error) = e →
      e = .CandidateRateLimit → error = .CandidateRateLimit := by
    rintro e rfl he
    split at he
    · cases hd : env.dispatch request <;> simp [hd, ShareVerification.Answer.error] at he
    · exact he
  unfold ShareVerification.finishSubmission
  dsimp only
  generalize hfinal : (if error = .NoError then (env.dispatch request).error else error) = final
  split
  · next hnone =>
    have hsound : error = .NoError := by
      by_contra hne
      rw [if_neg hne] at hfinal
      exact hne (hfinal.trans hnone)
    exact ⟨touches_same hc rfl, steady_requests rfl,
      ⟨_, rfl, rfl, rfl, rfl, rfl, fun _ => ⟨hkept hsound, hkept hsound⟩, by simp [failed]⟩⟩
  · next hrefused =>
    have hshut : ∀ s', (if final = .InvalidNonce then ShareVerification.shutdown key s'
        else ShareVerification.reply env key request.shareId s').cache = s'.cache := by
      intro s'
      split <;> simp
    have hrequests : ∀ s', requests (if final = .InvalidNonce then
        ShareVerification.shutdown key s' else
        ShareVerification.reply env key request.shareId s') = requests s' := by
      intro s'
      split <;> simp
    cases hinfra : ShareVerification.isInfrastructureFailure final with
    | true =>
        have hforget := (cache_forgetSubmission hm hcomputed).1
        refine ⟨touches_release hc ((hshut _).trans hforget), steady_requests ?_,
          ⟨_, rfl, rfl, rfl, rfl, rfl, by simp [accepted], fun _ => ?_⟩⟩
        · rw [ShareVerification.report, hrequests]
          simp
        · simp only [ShareVerification.report, if_true, hshut, hforget,
            GlobalShareCache.held_release]
          simp
    | false =>
        refine ⟨touches_same hc (hshut _), steady_requests ?_,
          ⟨_, rfl, rfl, rfl, rfl, rfl, by simp [accepted], fun hf => ?_⟩⟩
        · rw [ShareVerification.report, hrequests]
          rfl
        · simp only [failed, hinfra, Bool.false_or, decide_eq_true_eq] at hf
          simp [ShareVerification.report, hshut, herror (hanswer final hfinal hf)]

theorem accepted_finish {error : Error} {o : Outcome}
    (ho : .ended o ∈ (ShareVerification.finishSubmission env key request submission error s).2)
    (ha : accepted o.verdict = true) : error = .NoError := by
  by_contra hne
  unfold ShareVerification.finishSubmission at ho
  simp only [if_neg hne] at ho
  have ho' := List.mem_singleton.mp ho
  simp only [ShareVerification.Observation.ended.injEq] at ho'
  rw [ho'] at ha
  cases ha

theorem reported_unverified (hc : Consistent s.cache) (hm : s.miners.find key = some m)
    (hcomputed : submission.computedGlobal = {}) :
    Reported key request submission.globalShare (held s.cache submission.globalShare) s
      (ShareVerification.submitUnverified env key request submission s).1
      (ShareVerification.submitUnverified env key request submission s).2 := by
  unfold ShareVerification.submitUnverified
  split
  · refine ⟨touches_same hc (cache_reply ..), steady_requests (requests_reply ..),
      ⟨_, rfl, rfl, rfl, rfl, rfl, fun _ => ⟨rfl, ?_⟩, by simp [failed]⟩⟩
    simp [ShareVerification.report]
  · exact reported_finish hc hm hcomputed (fun _ => rfl) (by simp)

/-- A share handed to the verifier: one new callback, and nothing else has changed. -/
structure Started (key shareId : ℕ) (job : Miner.TelemetryJob)
    (submission : Miner.SubmissionReservation) (options : Options) (s s' : System) : Prop where
  cache : s'.cache = s.cache
  callback : ∃ share : PendingShare, share.shareId = shareId ∧ share.submission = submission ∧
    share.retainSubmission = false ∧
    ShareVerification.ofTemplate share.templateSourceId share.height =
      ShareVerification.ofTemplate job.templateSourceId job.height ∧
    (callbacks s'.verifier).Perm (⟨key, share⟩ :: callbacks s.verifier)
  accounted : Accounted options s'.verifier

theorem perm_verify (venv : RandomXVerifier.Env) (request : RandomXVerifier.Request)
    (callback : Callback) {v : RandomXVerifier.State Callback} (ha : Accounted options v)
    (hqueued : (RandomXVerifier.verify options venv request (some callback) v).1 = true) :
    let after := (RandomXVerifier.verify options venv request (some callback) v).2.1
    Accounted options after ∧ (callbacks after).Perm (callback :: callbacks v) := by
  intro after
  rcases verify_cases venv options request (some callback) v with
    ⟨hrefused, -⟩ | ⟨handle, sent, out, hhandle, hadmits, hsent, heq⟩
  · rw [hrefused] at hqueued
    cases hqueued
  · obtain rfl : callback = handle := Option.some.inj hhandle
    have hledger : VerifierAccounting.Ledger options (pendingCount v) v [] := ⟨ha, fun c => rfl⟩
    have hadded := hledger.admit venv options callback hadmits hsent
    have hafter : after = (RandomXVerifier.verify options venv request (some callback) v).2.1 := rfl
    rw [heq] at hafter
    rw [hafter]
    refine ⟨hadded.accounted, List.perm_iff_count.mpr fun c => ?_⟩
    have hbalance := hadded.balance c
    have hnone : finished c out = 0 := hsent.finished c
    rw [List.nil_append, hnone] at hbalance
    rw [List.count_cons, count_callbacks, count_callbacks]
    simp only [beq_iff_eq]
    omega

/-- A share is queued, or it was never built, or it was destroyed with its reservation. -/
theorem startVerification_cases (candidateFallback : Bool) (ha : Accounted options s.verifier)
    (hcomputed : submission.computedGlobal = {}) :
    let r := ShareVerification.startVerification env options key request job m submission
      candidateFallback s
    let request' := ShareVerification.verifyRequest key
      (ShareVerification.pendingShare request job m {} candidateFallback)
    (r.1 = true ∧ Started key request.shareId job submission options s r.2) ∨
      (r.1 = false ∧ r.2.miners = s.miners ∧ Steady s r.2 ∧
        ((ShareVerification.verifiable job = false ∧ r.2.cache = s.cache) ∨
          (ShareVerification.verifiable job = true ∧
            takes options (ShareVerification.verifierEnv env s) request' s.verifier = false ∧
            r.2.cache = GlobalShareCache.release submission.globalShare s.cache))) := by
  intro r request'
  have hr : r = ShareVerification.startVerification env options key request job m submission
    candidateFallback s := rfl
  have hempty : ∀ c : GlobalShareCache.State, GlobalShareCache.release {} c = c := fun _ => rfl
  unfold ShareVerification.startVerification at hr
  cases hverifiable : ShareVerification.verifiable job with
  | false =>
      rw [hverifiable, if_pos (show (!false) = true from rfl)] at hr
      rw [hr]
      exact Or.inr ⟨rfl, rfl, steady_requests rfl, Or.inl ⟨rfl, rfl⟩⟩
  | true =>
      rw [hverifiable, if_neg (by simp)] at hr
      dsimp only at hr
      let share := ShareVerification.pendingShare request job m submission candidateFallback
      have hfst := verify_fst options (ShareVerification.verifierEnv env s)
        (ShareVerification.verifyRequest key share) ⟨key, share⟩ s.verifier
      cases htakes : takes options (ShareVerification.verifierEnv env s) request' s.verifier with
      | true =>
          left
          have hqueued := hfst.trans htakes
          obtain ⟨haccounted, hperm⟩ := perm_verify (ShareVerification.verifierEnv env s)
            (ShareVerification.verifyRequest key share) ⟨key, share⟩ ha hqueued
          rw [hqueued, if_pos rfl] at hr
          rw [hr]
          exact ⟨rfl, rfl, ⟨share, rfl, rfl, rfl, rfl, hperm⟩, haccounted⟩
      | false =>
          right
          have hqueued := hfst.trans htakes
          rw [hqueued, if_neg (by simp)] at hr
          rw [hr]
          have hsteady : Undisturbed s.verifier ((RandomXVerifier.verify options
              (ShareVerification.verifierEnv env s) (ShareVerification.verifyRequest key share)
              (some ⟨key, share⟩) s.verifier).2.1, []) := by
            rcases verify_cases (ShareVerification.verifierEnv env s) options
                (ShareVerification.verifyRequest key share) (some ⟨key, share⟩) s.verifier with
              ⟨-, hundisturbed⟩ | ⟨_, _, _, -, -, -, heq⟩
            · exact ⟨hundisturbed.pending, hundisturbed.pendingByOwner,
                hundisturbed.nextRequestId, fun _ => rfl⟩
            · rw [heq] at hqueued
              cases hqueued
          have hretain : (ShareVerification.pendingShare request job m submission
            candidateFallback).retainSubmission = false := rfl
          refine ⟨rfl, ?_, ?_, Or.inr ⟨rfl, rfl, ?_⟩⟩
          · simp only [ShareVerification.destroyShare, hretain]
            rfl
          · simp only [ShareVerification.destroyShare, hretain]
            exact hsteady
          · simp only [ShareVerification.destroyShare, hretain]
            simp [ShareVerification.pendingShare, hcomputed, hempty]

theorem unverifiedError_cases (candidate : Bool) (s : System) :
    let r := ShareVerification.unverifiedError env options key candidate s
    r.2.miners = s.miners ∧ r.2.cache = s.cache ∧ Steady s r.2 ∧
      (r.1 = .NoError → candidate = true) := by
  intro r
  have hr : r = ShareVerification.unverifiedError env options key candidate s := rfl
  unfold ShareVerification.unverifiedError at hr
  cases candidate with
  | false =>
      rw [if_pos (show (!false) = true from rfl)] at hr
      rw [hr]
      exact ⟨rfl, rfl, steady_requests rfl, by simp⟩
  | true =>
      rw [if_neg (show ¬ (!true) = true by decide)] at hr
      rw [hr]
      exact ⟨rfl, rfl, (undisturbed_candidate (ShareVerification.verifierEnv env s) options key
        s.verifier).2, fun _ => rfl⟩

/-- The end of a submission that the verifier did not take. -/
theorem reported_unverifiedError {candidate kept : Bool} (hc : Consistent s.cache)
    (hm : ∃ m', s.miners.find key = some m') (hcomputed : submission.computedGlobal = {})
    (hkept : candidate = true → held s.cache submission.globalShare = kept) :
    let e := ShareVerification.unverifiedError env options key candidate s
    let r := ShareVerification.finishSubmission env key request submission e.1
      (if e.1 = .NoError then e.2 else ShareVerification.forgetSubmission key submission e.2)
    Reported key request submission.globalShare kept s r.1 r.2 := by
  intro e r
  obtain ⟨m', hm'⟩ := hm
  obtain ⟨hminers, hcache, hsteady, hcandidate⟩ :=
    @unverifiedError_cases env key options candidate s
  have hfind : e.2.miners.find key = some m' := by rw [hminers, hm']
  by_cases herror : e.1 = .NoError
  · have hr : r = ShareVerification.finishSubmission env key request submission e.1 e.2 := by
      simp only [r, herror, if_true]
    rw [hr]
    refine (reported_finish (hcache ▸ hc) hfind hcomputed (fun _ => ?_) ?_).after
      (touches_same hc hcache) hsteady
    · rw [hcache]
      exact hkept (hcandidate herror)
    · rw [herror]
      simp
  · have hr : r = ShareVerification.finishSubmission env key request submission e.1
        (ShareVerification.forgetSubmission key submission e.2) := by
      simp only [r, if_neg herror]
    obtain ⟨hforget, m'', hm''⟩ := cache_forgetSubmission hfind hcomputed
    rw [hcache] at hforget
    rw [hr]
    refine (reported_finish ?_ hm'' hcomputed (fun h => absurd h herror) fun _ => ?_).after
      (touches_release hc hforget) 
      (hsteady.trans (steady_requests (requests_forgetSubmission ..)))
    · rw [hforget]
      exact GlobalShareCache.consistent_release _ hc
    · rw [hforget, GlobalShareCache.held_release]
      simp

/-- A submission that is verified is queued, or it is reported; a candidate has lost its
reservation exactly when its share was built. -/
theorem startOrReport {candidate kept : Bool} (ha : Accounted options s.verifier)
    (hc : Consistent s.cache) (hm : ∃ m', s.miners.find key = some m')
    (hcomputed : submission.computedGlobal = {})
    (hkept : candidate = true → kept = (!(ShareVerification.verifiable job &&
      !takes options (ShareVerification.verifierEnv env s) (ShareVerification.verifyRequest key
        (ShareVerification.pendingShare request job m {} true)) s.verifier) &&
      held s.cache submission.globalShare)) :
    let b := ShareVerification.startVerification env options key request job m submission
      candidate s
    let e := ShareVerification.unverifiedError env options key candidate b.2
    let r := if b.1 then (b.2, []) else
      ShareVerification.finishSubmission env key request submission e.1
        (if e.1 = .NoError then e.2 else ShareVerification.forgetSubmission key submission e.2)
    (r.2 = [] ∧ Started key request.shareId job submission options s r.1) ∨
      Reported key request submission.globalShare kept s r.1 r.2 := by
  intro b e r
  rcases @startVerification_cases env key request submission m s options job candidate ha
      hcomputed with ⟨htrue, hstarted⟩ | ⟨hfalse, hminers, hsteady, hcases⟩
  · have hr : r = (b.2, []) := if_pos htrue
    rw [hr]
    exact Or.inl ⟨rfl, hstarted⟩
  · have hr : r = _ := if_neg (by rw [hfalse]; decide)
    have hm' : ∃ m', b.2.miners.find key = some m' := hminers ▸ hm
    right
    rw [hr]
    rcases hcases with ⟨hunverifiable, hcache⟩ | ⟨hverifiable, htakes, hcache⟩
    · refine (reported_unverifiedError (hcache ▸ hc) hm' hcomputed fun hcandidate => ?_).after
        (touches_same hc hcache) hsteady
      rw [hcache, hkept hcandidate, hunverifiable]
      rfl
    · refine (reported_unverifiedError ?_ hm' hcomputed fun hcandidate => ?_).after
        (touches_release hc hcache) hsteady
      · rw [hcache]
        exact GlobalShareCache.consistent_release _ hc
      · subst hcandidate
        rw [hcache, hkept rfl, hverifiable, htakes, GlobalShareCache.held_release]
        simp

/-- A submission with a verifier configured is queued, or it is reported with its reservation
unless it is over its budget. -/
theorem submitVerified_cases (ha : Accounted options s.verifier) (hc : Consistent s.cache)
    (hm : ∃ m', s.miners.find key = some m') (hcomputed : submission.computedGlobal = {}) :
    let r := ShareVerification.submitVerified env options key request job m submission s
    (r.2 = [] ∧ Started key request.shareId job submission options s r.1) ∨
      Reported key request submission.globalShare
        (!overBudget options (ShareVerification.verifierEnv env s) key request job m s.verifier &&
          held s.cache submission.globalShare) s r.1 r.2 := by
  intro r
  have hr : r = ShareVerification.submitVerified env options key request job m submission s := rfl
  unfold ShareVerification.submitVerified at hr
  obtain ⟨m', hm'⟩ := hm
  cases hclaimed : Miner.claimedCandidate request job with
  | true =>
      rw [hclaimed] at hr
      have hquiet := (undisturbed_candidate (ShareVerification.verifierEnv env s) options key
        s.verifier).1
      rcases hbudget : RandomXVerifier.allowCandidate options (ShareVerification.verifierEnv env s)
        key s.verifier with ⟨allowed, v⟩
      rw [hbudget] at hquiet
      simp only [hbudget, if_true] at hr
      have hsteady : Steady s { s with verifier := v } := hquiet
      have haccounted : Accounted options v :=
        ha.frame hquiet.pending hquiet.pendingByOwner hquiet.nextRequestId
      have htouches : Touches submission.globalShare s { s with verifier := v } :=
        touches_same hc rfl
      cases allowed with
      | true =>
          right
          rw [hr, if_pos (by decide)]
          have hreported := @reported_finish env key request submission m' { s with verifier := v }
            .NoError (held s.cache submission.globalShare) hc hm' hcomputed (fun _ => rfl)
            (fun h => by cases h)
          simpa [overBudget, hbudget] using hreported.after htouches hsteady
      | false =>
          have htail := @startOrReport env key request submission m { s with verifier := v }
            options job true (!overBudget options (ShareVerification.verifierEnv env s) key request
              job m s.verifier && held s.cache submission.globalShare) haccounted hc ⟨m', hm'⟩
            hcomputed (fun _ => by simp [overBudget, hclaimed, hbudget]; rfl)
          rw [hr]
          rcases htail with ⟨hnil, hstarted⟩ | hreported
          · obtain ⟨share, hid, hsubmission, hretain, hdaemon, hperm⟩ := hstarted.callback
            rw [hsteady.callbacks] at hperm
            exact Or.inl ⟨hnil, hstarted.cache, ⟨share, hid, hsubmission, hretain, hdaemon, hperm⟩,
              hstarted.accounted⟩
          · exact Or.inr (hreported.after htouches hsteady)
  | false =>
      have htail := @startOrReport env key request submission m s options job false
        (!overBudget options (ShareVerification.verifierEnv env s) key request job m
          s.verifier && held s.cache submission.globalShare) ha hc ⟨m', hm'⟩
            hcomputed (fun h => by cases h)
      rw [hclaimed] at hr
      rw [hr]
      exact htail

end Submissions

section Checks

variable {config : Miner.Config} {now : ℕ} {params : Json} {request : JobResult}
  {job : Option Miner.TelemetryJob} {m : Miner.State} {cache : Miner.Cache}

/-- What the checks of a submission do to the cache: they grant at most one reservation,
which is new, and only to a share that passes. -/
structure Checked (g : Reservation) (error : Error) (before after : Miner.Cache) : Prop where
  consistent : Consistent after
  buckets : ∀ src h, hasHeight after src h = hasHeight before src h
  others : ∀ r, r ≠ g → held after r = held before r
  granted : g.valid = true → error = .NoError ∧ held after g = true ∧ held before g = false ∧
    g.token = nextToken before.sequence

theorem not_held_of_invalid {r : Reservation} (hr : r.valid = false)
    (s : GlobalShareCache.State) : held s r = false := by
  simp only [Reservation.valid, decide_eq_false_iff_not, not_not] at hr
  simp [held, hr]

theorem valid_of_held {r : Reservation} {s : GlobalShareCache.State} (h : held s r = true) :
    r.valid = true := by
  by_contra hinvalid
  rw [not_held_of_invalid (by simpa using hinvalid)] at h
  cases h

theorem checked_refl (error : Error) (hc : Consistent cache) : Checked {} error cache cache :=
  ⟨hc, fun _ _ => rfl, fun _ _ => rfl, fun h => by cases h⟩

theorem checked_reserve {src height : ℕ} {newKey : GlobalShareCache.Key} (hc : Consistent cache) :
    let r := GlobalShareCache.reserve src height newKey cache
    Checked r.2.1 (Miner.duplicateError r.1) cache r.2.2 := by
  intro r
  refine ⟨GlobalShareCache.consistent_reserve _ _ _ hc, GlobalShareCache.hasHeight_reserve _ _ _ _,
    fun other hne => ?_, fun hvalid => ?_⟩
  · have hother : other ≠ (GlobalShareCache.reserve src height newKey cache).2.1 := hne
    rw [GlobalShareCache.held_reserve hc]
    simp [hother]
  · rcases GlobalShareCache.reserve_cases src height newKey cache with
      ⟨-, hempty, -⟩ | ⟨haccepted, hr, -⟩
    · rw [hempty] at hvalid
      cases hvalid
    · refine ⟨?_, (GlobalShareCache.reserve_accepted haccepted).1,
        GlobalShareCache.not_held_of_accepted hc haccepted, ?_⟩
      · rw [haccepted]
        rfl
      · rw [hr]

/-- A share of a daemon job that is remembered has a reservation. -/
theorem valid_of_remembered {job : Miner.TelemetryJob} {jobId nonce resultHash : Option String}
    (haccepted : (Miner.rememberSubmission now job jobId nonce resultHash m cache).1 = .accepted)
    (hdaemon : ShareVerification.ofTemplate job.templateSourceId job.height = true) :
    (Miner.rememberSubmission now job jobId nonce resultHash m cache).2.1.globalShare.valid =
      true := by
  have hjob : job.templateSourceId ≠ 0 ∧ job.height ≠ 0 := by
    simpa [ShareVerification.ofTemplate] using hdaemon
  unfold Miner.rememberSubmission at haccepted ⊢
  cases jobId with
  | none => cases haccepted
  | some jobId =>
      cases nonce with
      | none => cases haccepted
      | some nonce =>
          simp only [if_pos hjob] at haccepted ⊢
          cases hkey : resultHash.bind (GlobalShareCache.makeKey job.entropy) with
          | none =>
              rw [hkey] at haccepted
              cases haccepted
          | some newKey =>
              rw [hkey] at haccepted
              have hreserved := (GlobalShareCache.reserve_accepted haccepted).2.1
              simp [hreserved, Reservation.valid, GlobalShareCache.nextToken_ne_zero]

theorem valid_of_checked {retained : Miner.TelemetryJob}
    (hnone : (Miner.checkSubmission config now params request job m cache).1 = .NoError)
    (hjob : job = some retained)
    (hdaemon : ShareVerification.ofTemplate retained.templateSourceId retained.height = true) :
    (Miner.checkSubmission config now params request job m cache).2.1.globalShare.valid = true := by
  rcases @Miner.checkSubmission_cases config now params request job m cache with
    ⟨hrefused, -⟩ | ⟨retained', hjob', -, -, -, -, herror, hrest⟩
  · exact absurd hnone hrefused
  · obtain rfl := Option.some.inj (hjob.symm.trans hjob')
    rw [hrest]
    refine valid_of_remembered ?_ hdaemon
    rw [herror] at hnone
    revert hnone
    cases (Miner.rememberSubmission now retained request.jobId request.nonce request.result m
      cache).1 <;> simp [Miner.duplicateError]

/-- A request carries the template of the job that it names. -/
theorem ofTemplate_submitRequest {id : ℤ} {shareId : ℕ}
    (hdaemon : ShareVerification.ofTemplate
      (Miner.submitRequest config id shareId params job m).templateSourceId
      (Miner.submitRequest config id shareId params job m).height = true) :
    ∃ retained, job = some retained ∧
      ShareVerification.ofTemplate retained.templateSourceId retained.height = true := by
  cases job with
  | none => cases hdaemon
  | some retained => exact ⟨retained, rfl, hdaemon⟩

theorem checked_submission (hc : Consistent cache) :
    let r := Miner.checkSubmission config now params request job m cache
    r.2.1.computedGlobal = {} ∧ Checked r.2.1.globalShare r.1 cache r.2.2.2 := by
  intro r
  rcases @Miner.checkSubmission_cases config now params request job m cache with
    ⟨-, hsame⟩ | ⟨retained, -, -, -, -, -, herror, hrest⟩
  · have hr : r.2 = ({}, m, cache) := hsame
    rw [hr]
    exact ⟨rfl, checked_refl _ hc⟩
  · have hr : r.1 = _ := herror
    have hr' : r.2 = _ := hrest
    rw [hr, hr']
    obtain ⟨-, hcomputed, ⟨hempty, hcache⟩ | ⟨newKey, -, hresult, hg, hcache⟩⟩ :=
      Miner.rememberSubmission_cases now retained request.jobId request.nonce request.result m cache
    · rw [hempty, hcache]
      exact ⟨hcomputed, checked_refl _ hc⟩
    · rw [hresult, hg, hcache]
      exact ⟨hcomputed, checked_reserve hc⟩

end Checks

section Moves

variable {config : Config} {env : ShareVerification.Env} {s s' : System}

/-- The submission slips when its event is that of a candidate over its budget. -/
def slips (config : Config) (s : System) (e : ShareVerification.Env × ShareVerification.Event) :
    Bool :=
  match config.verifier, e.2 with
  | some options, .submit key id params =>
      match s.miners.find key with
      | none => false
      | some m =>
          match ShareVerification.namedJob s.now params m with
          | none => false
          | some job => overBudget options (ShareVerification.verifierEnv e.1 s) key
              (Miner.submitRequest config.miner id (s.shareSequence + 1) params (some job) m)
              job m s.verifier
  | _, _ => false

/-- The share of a daemon job has a reservation. -/
def Reserving (c : Callback) : Prop :=
  ShareVerification.ofTemplate c.share.templateSourceId c.share.height = true →
    (owned c).valid = true

/-- The reservation is granted in this step. -/
structure Grant (s : System) (out : List ShareVerification.Observation) (key shareId : ℕ)
    (r : Reservation) : Prop where
  reserved : .reserved key shareId r ∈ out
  fresh : held s.cache r = false
  token : r.token = nextToken s.cache.sequence

/-- What one event does: the callbacks in `ended` end, those in `started` begin and the
others stay, no reservation but theirs is lost while its bucket is kept, and every verdict
agrees with what becomes of the reservation. -/
structure Moves (config : Config) (slipped : Bool) (s s' : System)
    (out : List ShareVerification.Observation) (ended started kept : List Callback) : Prop where
  accounted : ∀ options, config.verifier = some options → Accounted options s'.verifier
  consistent : Consistent s'.cache
  before : (callbacks s.verifier).Perm (ended ++ kept)
  after : (callbacks s'.verifier).Perm (started ++ kept)
  single : started.length ≤ 1
  others : ∀ r, r.valid = true → (∀ c ∈ ended, owned c ≠ r) → held s.cache r = true →
    hasHeight s'.cache r.sourceId r.height = true → held s'.cache r = true
  grown : ∀ r, held s'.cache r = true →
    held s.cache r = true ∨ r.token = nextToken s.cache.sequence
  fresh : ∀ c ∈ started, Pristine c.share ∧ Reserving c ∧ ((owned c).valid = true →
    Grant s out c.key c.share.shareId (owned c) ∧ held s'.cache (owned c) = true)
  outcomes : ∀ o, .ended o ∈ out →
    ((∃ c ∈ ended, Reports o c ∧ (accepted o.verdict = true → o.reservation.valid = true →
        slipped = false ∧ (held s.cache o.reservation = true → o.heldThen = true))) ∨
      (started = [] ∧ (o.reservation.valid = true →
          Grant s out o.key o.shareId o.reservation) ∧
        (accepted o.verdict = true → (o.daemon = true → o.reservation.valid = true) ∧
          (o.reservation.valid = true → o.heldThen = !slipped)))) ∧
    (accepted o.verdict = true → o.reservation.valid = true → o.heldThen = true →
      held s'.cache o.reservation = true) ∧
    (failed o.verdict = true → held s'.cache o.reservation = false)

/-- The invariant of the run. -/
structure Sound (config : Config) (s : System) : Prop where
  accounted : ∀ options, config.verifier = some options → Accounted options s.verifier
  owned : Owned s (callbacks s.verifier)
  reserving : ∀ c ∈ callbacks s.verifier, Reserving c

theorem moves_maintained {sourceId : ℕ} {heights : List ℕ} (hs : Sound config s) (slipped : Bool)
    (hm : GlobalShareCache.Maintains sourceId heights s.cache s'.cache)
    (hv : s'.verifier = s.verifier) :
    Moves config slipped s s' [] [] [] (callbacks s.verifier) where
  accounted := hv ▸ hs.accounted
  consistent := hm.consistent hs.owned.consistent
  before := List.Perm.refl _
  after := by rw [hv]; exact List.Perm.refl _
  single := Nat.zero_le _
  others := fun r _ _ hheld hbucket => (hm.held r).mpr ⟨hheld, hbucket⟩
  grown := fun r hheld => Or.inl ((hm.held r).mp hheld).1
  fresh := by simp
  outcomes := by simp

/-- The observation of a granted reservation. -/
def reservedBy (key shareId : ℕ) (error : Error) (g : Reservation) :
    List ShareVerification.Observation :=
  if error = .NoError ∧ g.valid = true then [.reserved key shareId g] else []

theorem mem_reservedBy {key shareId : ℕ} {error : Error} {g : Reservation} (hvalid : g.valid = true)
    (herror : error = .NoError) : .reserved key shareId g ∈ reservedBy key shareId error g := by
  rw [reservedBy, if_pos ⟨herror, hvalid⟩]
  exact List.mem_singleton_self _

theorem ended_notMem_reservedBy (key shareId : ℕ) (error : Error) (g : Reservation)
    (o : Outcome) : .ended o ∉ reservedBy key shareId error g := by
  unfold reservedBy
  split <;> simp

/-- The moves of a checked submission that is reported. -/
theorem Reported.moves {key : ℕ} {request : JobResult} {g : Reservation} {kept slipped : Bool}
    {error : Error} {checked : System} {out : List ShareVerification.Observation}
    (h : Reported key request g kept checked s' out) (hs : Sound config s)
    (hchecked : Checked g error s.cache checked.cache) (hv : checked.verifier = s.verifier)
    (hdaemon : ∀ o, .ended o ∈ out → accepted o.verdict = true →
      ShareVerification.ofTemplate request.templateSourceId request.height = true →
      g.valid = true)
    (hkept : g.valid = true → kept = !slipped) :
    Moves config slipped s s' (reservedBy key request.shareId error g ++ out) [] []
      (callbacks s.verifier) := by
  have hcallbacks : callbacks s'.verifier = callbacks s.verifier := by
    rw [h.steady.callbacks, hv]
  refine ⟨fun options hoptions => ?_, h.consistent, List.Perm.refl _, hcallbacks ▸ List.Perm.refl _,
    Nat.zero_le _, fun r hvalid _ hheld _ => ?_, fun r hheld => ?_, by simp, fun o ho => ?_⟩
  · have hquiet : Undisturbed checked.verifier (s'.verifier, []) := h.steady
    rw [hv] at hquiet
    exact (hs.accounted options hoptions).frame hquiet.pending hquiet.pendingByOwner
      hquiet.nextRequestId
  · have hne : r ≠ g := by
      rintro rfl
      rw [(hchecked.granted hvalid).2.2.1] at hheld
      cases hheld
    rw [h.others r hne, hchecked.others r hne]
    exact hheld
  · by_cases hr : r = g
    · subst hr
      exact Or.inr (hchecked.granted (valid_of_held hheld)).2.2.2
    · left
      rwa [← hchecked.others r hr, ← h.others r hr]
  · obtain ⟨o', hout, hkey, hid, hdaemon', hres, hacc, hfail⟩ := h.outcome
    have ho' : .ended o ∈ out := by
      rcases List.mem_append.mp ho with hfirst | hlast
      · exact absurd hfirst (ended_notMem_reservedBy _ _ _ _ o)
      · exact hlast
    have heq : o = o' := by
      rw [hout] at ho'
      simpa using ho'
    subst heq
    refine ⟨Or.inr ⟨rfl, fun hvalid => ?_, fun ha => ⟨fun hd => ?_, fun hvalid => ?_⟩⟩,
      fun ha hvalid hthen => ?_, fun hf => ?_⟩
    · rw [hres] at hvalid ⊢
      obtain ⟨herror, -, hfresh, htoken⟩ := hchecked.granted hvalid
      rw [hkey, hid]
      exact ⟨List.mem_append_left _ (mem_reservedBy hvalid herror), hfresh, htoken⟩
    · rw [hres]
      exact hdaemon o ho' ha (hdaemon' ▸ hd)
    · exact (hacc ha).1.trans (hkept (hres ▸ hvalid))
    · rw [hres, (hacc ha).2, ← (hacc ha).1, hthen]
    · rw [hres]
      exact hfail hf

/-- The moves of a checked submission that is handed to the verifier. -/
theorem Started.moves {key shareId : ℕ} {job : Miner.TelemetryJob}
    {submission : Miner.SubmissionReservation} {error : Error} {checked : System}
    {options : Options} (h : Started key shareId job submission options checked s')
    (slipped : Bool) (hchecked : Checked submission.globalShare error s.cache checked.cache)
    (hv : checked.verifier = s.verifier) (hcomputed : submission.computedGlobal = {})
    (hdaemon : ShareVerification.ofTemplate job.templateSourceId job.height = true →
      submission.globalShare.valid = true) (hconfig : config.verifier = some options) :
    ∃ c, Moves config slipped s s' (reservedBy key shareId error submission.globalShare ++ []) []
      [c] (callbacks s.verifier) := by
  obtain ⟨share, hid, hsubmission, hretain, htemplate, hperm⟩ := h.callback
  rw [hv] at hperm
  have howned : owned ⟨key, share⟩ = submission.globalShare := by rw [owned, hsubmission]
  refine ⟨⟨key, share⟩, fun options' hoptions => ?_, ?_, List.Perm.refl _, hperm, le_rfl,
    fun r hvalid _ hheld _ => ?_, fun r hheld => ?_, fun c hc => ?_, fun o ho => ?_⟩
  · rw [hconfig] at hoptions
    obtain rfl := Option.some.inj hoptions
    exact h.accounted
  · rw [h.cache]
    exact hchecked.consistent
  · have hne : r ≠ submission.globalShare := by
      rintro rfl
      rw [(hchecked.granted hvalid).2.2.1] at hheld
      cases hheld
    rw [h.cache, hchecked.others r hne]
    exact hheld
  · rw [h.cache] at hheld
    by_cases hr : r = submission.globalShare
    · subst hr
      exact Or.inr (hchecked.granted (valid_of_held hheld)).2.2.2
    · left
      rwa [← hchecked.others r hr]
  · obtain rfl := List.mem_singleton.mp hc
    refine ⟨⟨hretain, ?_⟩, fun hd => ?_, fun hvalid => ?_⟩
    · rw [hsubmission]
      exact hcomputed
    · rw [howned]
      exact hdaemon (htemplate ▸ hd)
    · rw [howned] at hvalid ⊢
      obtain ⟨herror, hheld, hfresh, htoken⟩ := hchecked.granted hvalid
      refine ⟨⟨List.mem_append_left _ ?_, hfresh, htoken⟩, ?_⟩
      · rw [hid]
        exact mem_reservedBy hvalid herror
      · rw [h.cache]
        exact hheld
  · rw [List.append_nil] at ho
    exact absurd ho (ended_notMem_reservedBy _ _ _ _ o)

theorem moves_submit (hs : Sound config s) (key : ℕ) (id : ℤ) (params : Json) :
    ∃ started, Moves config (slips config s (env, .submit key id params)) s
      (ShareVerification.submit config env key id params s).1
      (ShareVerification.submit config env key id params s).2 [] started
      (callbacks s.verifier) := by
  have hskip : Moves config (slips config s (env, .submit key id params)) s s [] [] []
      (callbacks s.verifier) :=
    moves_maintained hs _ (GlobalShareCache.maintains_refl 0 [] s.cache) rfl
  unfold ShareVerification.submit
  cases hminer : s.miners.find key with
  | none => exact ⟨[], hskip⟩
  | some m =>
      dsimp only
      split
      · exact ⟨[], hskip⟩
      · obtain ⟨hcomputed, hchecked⟩ := @checked_submission config.miner s.now params
          (Miner.submitRequest config.miner id (s.shareSequence + 1) params
            (ShareVerification.namedJob s.now params m) m)
          (ShareVerification.namedJob s.now params m) m s.cache hs.owned.consistent
        rcases hcheck : Miner.checkSubmission config.miner s.now params
          (Miner.submitRequest config.miner id (s.shareSequence + 1) params
            (ShareVerification.namedJob s.now params m) m)
          (ShareVerification.namedJob s.now params m) m s.cache with ⟨error, submission, m', cache⟩
        have hdaemon : ∀ job, ShareVerification.namedJob s.now params m = some job →
            error = .NoError →
            ShareVerification.ofTemplate job.templateSourceId job.height = true →
            submission.globalShare.valid = true := by
          intro job hjob herror htemplate
          have hvalid := @valid_of_checked config.miner s.now params _ _ m s.cache job
            ((congrArg Prod.fst hcheck).trans herror) hjob htemplate
          rwa [hcheck] at hvalid
        rw [hcheck] at hcomputed hchecked
        dsimp only at hcomputed hchecked ⊢
        have hm' : (s.miners.insert key m').find key = some m' := Table.find_insert_self ..
        have hgranted : submission.globalShare.valid = true → error = .NoError :=
          fun hvalid => (hchecked.granted hvalid).1
        have hheld : submission.globalShare.valid = true →
            held cache submission.globalShare = true := fun hvalid => (hchecked.granted hvalid).2.1
        split
        · next job options hjob hverifier =>
          have hslips : slips config s (env, .submit key id params) = overBudget options
              (ShareVerification.verifierEnv env s) key (Miner.submitRequest config.miner id
                (s.shareSequence + 1) params (some job) m) job m s.verifier := by
            simp [slips, hverifier, hminer, hjob]
          rw [hjob]
          rcases @submitVerified_cases env key (Miner.submitRequest config.miner id
              (s.shareSequence + 1) params (some job) m) submission m'
              { s with
                miners := s.miners.insert key m'
                shareSequence := s.shareSequence + 1
                cache := cache } options job (hs.accounted options hverifier) hchecked.consistent
              ⟨m', hm'⟩ hcomputed with ⟨hnil, hstarted⟩ | hreported
          · rw [hnil]
            obtain ⟨c, hc⟩ := hstarted.moves (slips config s (env, .submit key id params))
              hchecked rfl hcomputed (hdaemon job hjob rfl) hverifier
            exact ⟨[c], hc⟩
          · refine ⟨[], hreported.moves hs hchecked rfl (fun _ _ _ => hdaemon job hjob rfl)
              fun hvalid => ?_⟩
            rw [hheld hvalid, hslips, Bool.and_true]
            rfl
        · next hverifier =>
          have hreported := @reported_unverified env key (Miner.submitRequest config.miner id
              (s.shareSequence + 1) params (ShareVerification.namedJob s.now params m) m)
              submission m' { s with
                miners := s.miners.insert key m'
                shareSequence := s.shareSequence + 1
                cache := cache } hchecked.consistent hm' hcomputed
          refine ⟨[], hreported.moves hs hchecked rfl (fun _ _ _ htemplate => ?_) fun hvalid => ?_⟩
          · obtain ⟨job, hjob, htemplate'⟩ := ofTemplate_submitRequest htemplate
            exact hdaemon job hjob rfl htemplate'
          · simp [hheld hvalid, slips, hverifier]
        · next error _ _ _ hother hnamed =>
          have hunslipped : error = .NoError →
              slips config s (env, .submit key id params) = false := by
            intro herror
            cases hverifier : config.verifier with
            | none => exact (hother herror hverifier).elim
            | some options =>
                cases hjob : ShareVerification.namedJob s.now params m with
                | none => simp [slips, hverifier, hminer, hjob]
                | some job => exact (hnamed job options herror hjob hverifier).elim
          have hinvalid : error ≠ .NoError → held cache submission.globalShare = false := by
            intro herror
            refine not_held_of_invalid ?_ cache
            rw [Bool.eq_false_iff]
            exact fun hvalid => herror (hgranted hvalid)
          have hreported := @reported_finish env key (Miner.submitRequest config.miner id
              (s.shareSequence + 1) params (ShareVerification.namedJob s.now params m) m)
              submission m' { s with
                miners := s.miners.insert key m'
                shareSequence := s.shareSequence + 1
                cache := cache } error (held cache submission.globalShare) hchecked.consistent hm'
              hcomputed (fun _ => rfl) (fun herror => hinvalid (by rw [herror]; decide))
          refine ⟨[], hreported.moves hs hchecked rfl (fun o ho ha htemplate => ?_)
            fun hvalid => ?_⟩
          · obtain ⟨job, hjob, htemplate'⟩ := ofTemplate_submitRequest htemplate
            exact hdaemon job hjob (accepted_finish ho ha) htemplate'
          · rw [hheld hvalid, hunslipped (hgranted hvalid)]
            rfl

/-- The one answer that brings a success is settled by a single completion. -/
theorem settled_complete {options : Options} {sequence id : ℕ}
    {p : RandomXVerifier.Pending Callback} {result : RandomXVerifier.Result}
    {v : RandomXVerifier.State Callback} {r : RandomXVerifier.Effect Callback}
    (hr : r = RandomXVerifier.complete id p result v)
    (ho : Owned s (endedCallbacks r.2 ++ callbacks r.1)) (hsequence : s.cache.sequence = sequence) :
    let after := Handler.forEach (ShareVerification.settle env options) r.2 s
    Owned after.1 (callbacks r.1) ∧ requests after.1 = requests s ∧
      Settled (fun g => g.token = nextToken sequence) s after.1 (endedCallbacks r.2) after.2 := by
  intro after
  have hout : r.2 = [.called p.callback result] := by rw [hr]; rfl
  have hended : endedCallbacks r.2 = [p.callback] := by rw [hout]; rfl
  have hafter : after =
      ShareVerification.settle env options (.called p.callback result) s := by
    simp [after, hout, Handler.forEach, Handler.seq, Handler.skip]
  rw [hended] at ho ⊢
  have hends := @ends_called env s options p.callback result ho.consistent
    (ho.pristine p.callback List.mem_cons_self)
  rw [hafter]
  refine ⟨hends.owned ho, requests_settle .., hends.settled.mono fun g hg => ?_⟩
  rw [hg.2, hsequence]

/-- The moves of an event of the verifier, after a change of the cache that ends no share. -/
theorem moves_runVerifier {s₁ : System} {sourceId : ℕ} {heights : List ℕ} {options : Options}
    {event : ShareVerification.Event} (hs : Sound config s)
      (hconfig : config.verifier = some options)
    (hm : GlobalShareCache.Maintains sourceId heights s.cache s₁.cache)
    (hv : s₁.verifier = s.verifier)
    (hsame : s₁.cache = s.cache ∨ ∀ c result, .called c result ∉
      (ShareVerification.verifierEvent options (ShareVerification.verifierEnv env s₁) event
        s.verifier).2) :
    let r := ShareVerification.runVerifier env options (ShareVerification.verifierEvent options
      (ShareVerification.verifierEnv env s₁) event) s₁
    ∃ ended kept, Moves config false s r.1 r.2 ended [] kept := by
  intro r
  let f := ShareVerification.verifierEvent options (ShareVerification.verifierEnv env s₁) event
  let s₂ : System := { s₁ with verifier := (f s.verifier).1 }
  have hr : r = Handler.forEach (ShareVerification.settle env options) (f s.verifier).2 s₂ := by
    simp only [r, ShareVerification.runVerifier, hv, f, s₂]
  obtain ⟨haccounted, hperm⟩ := perm_callbacks (preserves_verifierEvent options
    (ShareVerification.verifierEnv env s₁) event) (hs.accounted options hconfig)
  have hconsistent : Consistent s₂.cache := hm.consistent hs.owned.consistent
  have howned : Owned s₂ (endedCallbacks (f s.verifier).2 ++ callbacks (f s.verifier).1) :=
    ⟨hconsistent, fun c hc => hs.owned.pristine c (hperm.mem_iff.mpr hc),
      distinct_perm hperm hs.owned.distinct⟩
  have hsettled : Owned r.1 (callbacks (f s.verifier).1) ∧ requests r.1 = requests s₂ ∧
      Settled (fun g => g.token = nextToken s.cache.sequence) s₂ r.1
        (endedCallbacks (f s.verifier).2) r.2 := by
    rw [hr]
    rcases verifierEvent_cases options (ShareVerification.verifierEnv env s₁) event s.verifier with
      ⟨doc, id, p, -, -, -, hanswer⟩ | hunanswered
    · exact settled_complete hanswer howned hm.sequence
    · obtain ⟨hlive, hrequests, hsettled⟩ := settled_forEach (f s.verifier).2 hunanswered.failed s₂
        (callbacks (f s.verifier).1) howned
      exact ⟨hlive, hrequests, hsettled.mono fun _ h => h.elim⟩
  obtain ⟨hlive, hrequests, hsettle⟩ := hsettled
  have hsteady : Steady s₂ r.1 := steady_requests hrequests
  refine ⟨endedCallbacks (f s.verifier).2, callbacks (f s.verifier).1, fun options' hoptions => ?_,
    hlive.consistent, hperm, ?_, Nat.zero_le _, fun g hvalid hne hheld hbucket => ?_,
    fun g hheld => ?_, by simp, fun o ho => ?_⟩
  · rw [hconfig] at hoptions
    obtain rfl := Option.some.inj hoptions
    have hquiet : Undisturbed s₂.verifier (r.1.verifier, []) := hsteady
    exact haccounted.frame hquiet.pending hquiet.pendingByOwner hquiet.nextRequestId
  · rw [hsteady.callbacks]
    exact List.Perm.refl _
  · rw [hsettle.buckets] at hbucket
    exact hsettle.others g hvalid hne ((hm.held g).mpr ⟨hheld, hbucket⟩)
  · rcases hsettle.grown g hheld with hold | hnew
    · exact Or.inl ((hm.held g).mp hold).1
    · exact Or.inr hnew
  · obtain ⟨o', heq, ⟨c, hc, hreports⟩, hacc, hfail⟩ := hsettle.outcomes _ ho
    obtain rfl : o = o' := by simpa using heq
    refine ⟨Or.inl ⟨c, hc, hreports, fun ha hvalid => ⟨rfl, fun hheld => ?_⟩⟩,
      fun ha hvalid hthen => (hacc ha hvalid).2 hthen, hfail⟩
    rcases hsame with hcache | hnone
    · apply (hacc ha hvalid).1
      have hcache₂ : s₂.cache = s.cache := hcache
      rw [hcache₂]
      exact hheld
    · rw [hr] at ho
      obtain ⟨c', result, hmem⟩ := accepted_called _ _ o ho ha
      exact absurd hmem (hnone c' result)

theorem moves_updateMiner (hs : Sound config s) (slipped : Bool) (key : ℕ)
    {f : Miner.State → Miner.Cache → Miner.State × Miner.Cache}
    (hf : ∀ m, ∃ sourceId heights,
      GlobalShareCache.Maintains sourceId heights s.cache (f m s.cache).2) :
    Moves config slipped s (ShareVerification.updateMiner key f s) [] [] []
      (callbacks s.verifier) := by
  unfold ShareVerification.updateMiner
  split
  · exact moves_maintained hs slipped (GlobalShareCache.maintains_refl 0 [] s.cache) rfl
  · next m _ =>
    obtain ⟨sourceId, heights, hm⟩ := hf m
    exact moves_maintained hs slipped hm rfl

theorem moves_withVerifier {s₁ : System} {sourceId : ℕ} {heights : List ℕ}
    {event : ShareVerification.Event} (hs : Sound config s)
    (hm : GlobalShareCache.Maintains sourceId heights s.cache s₁.cache)
    (hv : s₁.verifier = s.verifier)
    (hsame : s₁.cache = s.cache ∨ ∀ options c result, .called c result ∉
      (ShareVerification.verifierEvent options (ShareVerification.verifierEnv env s₁) event
        s.verifier).2) :
    let r := ShareVerification.withVerifier config env event s₁
    ∃ ended kept, Moves config false s r.1 r.2 ended [] kept := by
  unfold ShareVerification.withVerifier
  cases hconfig : config.verifier with
  | none => exact ⟨[], callbacks s.verifier, moves_maintained hs false hm hv⟩
  | some options =>
      exact moves_runVerifier hs hconfig hm hv (hsame.imp_right fun h => h options)

theorem moves_step (hs : Sound config s)
    (e : ShareVerification.Env × ShareVerification.Event) :
    let r := ShareVerification.step config s e
    ∃ ended started kept, Moves config (slips config s e) s r.1 r.2 ended started kept := by
  obtain ⟨env, event⟩ := e
  have hrefl := GlobalShareCache.maintains_refl 0 [] s.cache
  have hupdate : ∀ slipped key f, (∀ m, ∃ sourceId heights,
      GlobalShareCache.Maintains sourceId heights s.cache (f m s.cache).2) →
      ∃ ended started kept, Moves config slipped s (ShareVerification.updateMiner key f s) []
        ended started kept :=
    fun slipped key f hf => ⟨[], [], _, moves_updateMiner hs slipped key hf⟩
  have hverifier : ∀ event', (∀ key id params, event' ≠ .submit key id params) →
      ∃ ended started kept, Moves config (slips config s (env, event')) s
        (ShareVerification.withVerifier config env event' s).1
        (ShareVerification.withVerifier config env event' s).2 ended started kept := by
    intro event' hne
    obtain ⟨ended, kept, hmoves⟩ := @moves_withVerifier config env s s 0 [] event' hs hrefl rfl
      (Or.inl rfl)
    have hslips : slips config s (env, event') = false := by
      unfold slips
      split
      · next key id params _ hsubmit => exact absurd hsubmit (hne key id params)
      · rfl
    rw [hslips]
    exact ⟨ended, [], kept, hmoves⟩
  cases event with
  | advance elapsed => exact ⟨[], [], _, moves_maintained hs _ hrefl rfl⟩
  | connect rpcId => exact ⟨[], [], _, moves_maintained hs _ hrefl rfl⟩
  | login key => exact hupdate _ key _ fun m => ⟨0, [], hrefl⟩
  | assign key mapperId nicehash customDiff fixedByte =>
      exact hupdate _ key _ fun m => ⟨0, [], hrefl⟩
  | setJob key job extraNonce issue =>
      exact hupdate _ key _ fun m => ⟨_, _, ShareReplay.maintains_deliver issue.written⟩
  | forwardJob key job issue =>
      exact hupdate _ key _ fun m => ⟨_, _, ShareReplay.maintains_deliver issue.written⟩
  | clearTelemetryJobs key =>
      exact hupdate _ key _ fun m => ⟨0, [], GlobalShareCache.maintains_removeOwner m.key 0 s.cache⟩
  | close key => exact hupdate _ key _ fun m => ⟨0, [], hrefl⟩
  | destroy key =>
      have hslips : slips config s (env, .destroy key) = false := by
        unfold slips
        split
        · next h => cases h
        · rfl
      obtain ⟨ended, kept, hmoves⟩ := @moves_withVerifier config env s
        { s with
          miners := s.miners.erase key
          cache := GlobalShareCache.removeOwner key s.cache } 0 [] (.destroy key) hs
        (GlobalShareCache.maintains_removeOwner key 0 s.cache) rfl
        (Or.inr fun options c result hmem => by
          obtain ⟨entry, -, heq⟩ := List.mem_map.mp hmem
          cases heq)
      rw [hslips]
      exact ⟨ended, [], kept, hmoves⟩
  | observeHeight sourceId height =>
      exact ⟨[], [], _, moves_maintained hs _
        (GlobalShareCache.maintains_observeHeight sourceId height s.cache) rfl⟩
  | removeSource sourceId =>
      exact ⟨[], [], _, moves_maintained hs _
        ((GlobalShareCache.shrinks_removeSource sourceId s.cache).maintains 0) rfl⟩
  | submit key id params =>
      obtain ⟨started, hmoves⟩ := @moves_submit config env s hs key id params
      exact ⟨[], started, _, hmoves⟩
  | startVerifier => exact hverifier _ (by simp)
  | stopVerifier => exact hverifier _ (by simp)
  | tick => exact hverifier _ (by simp)
  | onConnect accepted => exact hverifier _ (by simp)
  | frame doc => exact hverifier _ (by simp)
  | closed error => exact hverifier _ (by simp)
  | prepareSeed seedHash => exact hverifier _ (by simp)

end Moves

section Runs

variable {config : Config} {s s' : System} {slipped : Bool}
  {out : List ShareVerification.Observation} {ended started kept : List Callback}

/-- The next token is none that a pending share still carries. -/
def TokenFresh (s : System) : Prop :=
  ∀ c ∈ callbacks s.verifier, (owned c).token ≠ nextToken s.cache.sequence

instance (s : System) : Decidable (TokenFresh s) :=
  inferInstanceAs (Decidable (∀ c ∈ callbacks s.verifier, _))

theorem Moves.sound (hm : Moves config slipped s s' out ended started kept) (hs : Sound config s)
    (hfresh : TokenFresh s) : Sound config s' := by
  have hbefore := distinct_perm hm.before hs.owned.distinct
  have hkept : ∀ c ∈ kept, c ∈ callbacks s.verifier :=
    fun c hc => hm.before.mem_iff.mpr (List.mem_append_right _ hc)
  have hafter : Owned s' (started ++ kept) := by
    refine ⟨hm.consistent, fun c hc => ?_,
      List.pairwise_append.mpr ⟨?_, ?_, fun c hc c' hc' hvalid heq => ?_⟩⟩
    · rcases List.mem_append.mp hc with hnew | hold
      · exact (hm.fresh c hnew).1
      · exact hs.owned.pristine c (hkept c hold)
    · have hsingle := hm.single
      clear hm
      rcases started with _ | ⟨c, _ | ⟨c', rest⟩⟩
      · exact List.Pairwise.nil
      · exact List.pairwise_singleton _ c
      · simp at hsingle
    · exact (List.pairwise_append.mp hbefore).2.1
    · have hgrant := ((hm.fresh c hc).2.2 hvalid).1
      exact hfresh c' (hkept c' hc') (heq ▸ hgrant.token)
  refine ⟨hm.accounted, ⟨hafter.consistent, fun c hc => hafter.pristine c (hm.after.mem_iff.mp hc),
    distinct_perm hm.after.symm hafter.distinct⟩, fun c hc => ?_⟩
  rcases List.mem_append.mp (hm.after.mem_iff.mp hc) with hnew | hold
  · exact (hm.fresh c hnew).2.1
  · exact hs.reserving c (hkept c hold)

variable (config) (es : ℕ → ShareVerification.Env × ShareVerification.Event)

/-- The state after `k` events. -/
def stateAt (k : ℕ) : System := (ShareVerification.machine config).state es k

/-- The bucket of a reservation is there after each of the events from `i` up to `j`. -/
def BucketKept (r : Reservation) (i j : ℕ) : Prop :=
  ∀ l, i < l → l ≤ j → hasHeight (stateAt config es l).cache r.sourceId r.height = true

/-- Every pending share has got its reservation at an earlier step, and it is held exactly
as long as its bucket has been kept since. -/
def Traced (k : ℕ) : Prop :=
  ∀ c ∈ callbacks (stateAt config es k).verifier, (owned c).valid = true →
    ∃ i < k, .reserved c.key c.share.shareId (owned c) ∈
        (ShareVerification.machine config).emitted es i ∧
      (held (stateAt config es k).cache (owned c) = true ↔ BucketKept config es (owned c) i k)

variable {config} {es}

theorem sound_initial : Sound config {} := by
  have hnone : callbacks ({} : RandomXVerifier.State Callback) = [] := rfl
  refine ⟨fun options _ => ?_, ⟨GlobalShareCache.consistent_initial, ?_, ?_⟩, ?_⟩
  · exact ⟨fun owner => rfl, fun id _ => rfl, Nat.zero_le _, fun owner => Nat.zero_le _⟩
  · simp [hnone]
  · simp [hnone]
  · simp [hnone]

theorem sound_at {k : ℕ} (hfresh : ∀ l < k, TokenFresh (stateAt config es l)) :
    Sound config (stateAt config es k) := by
  induction k with
  | zero => exact sound_initial
  | succ k ih =>
      have hsound := ih fun l hl => hfresh l (Nat.lt_succ_of_lt hl)
      obtain ⟨ended, started, kept, hmoves⟩ := moves_step hsound (es k)
      exact hmoves.sound hsound (hfresh k (Nat.lt_succ_self k))

theorem moves_at {k : ℕ} (hfresh : ∀ l < k, TokenFresh (stateAt config es l)) :
    ∃ ended started kept, Moves config (slips config (stateAt config es k) (es k))
      (stateAt config es k) (stateAt config es (k + 1))
      ((ShareVerification.machine config).emitted es k) ended started kept :=
  moves_step (sound_at hfresh) (es k)

theorem BucketKept.snoc {r : Reservation} {i k : ℕ} (hik : i ≤ k) :
    BucketKept config es r i (k + 1) ↔ BucketKept config es r i k ∧
      hasHeight (stateAt config es (k + 1)).cache r.sourceId r.height = true := by
  constructor
  · intro h
    exact ⟨fun l hil hlk => h l hil (by omega), h (k + 1) (by omega) le_rfl⟩
  · rintro ⟨h, hlast⟩ l hil hlk
    rcases Nat.le_succ_iff.mp hlk with hlk | rfl
    · exact h l hil hlk
    · exact hlast

/-- A pending share that stays is held afterwards exactly if it was and its bucket is kept. -/
theorem Moves.held_kept (hm : Moves config slipped s s' out ended started kept)
    (hs : Sound config s) (hfresh : TokenFresh s) {c : Callback} (hc : c ∈ kept)
    (hvalid : (owned c).valid = true) :
    held s'.cache (owned c) = true ↔ held s.cache (owned c) = true ∧
      hasHeight s'.cache (owned c).sourceId (owned c).height = true := by
  have hpending : c ∈ callbacks s.verifier := hm.before.mem_iff.mpr (List.mem_append_right _ hc)
  have hdistinct := distinct_perm hm.before hs.owned.distinct
  constructor
  · intro hheld
    refine ⟨?_, GlobalShareCache.hasHeight_of_held hheld⟩
    rcases hm.grown _ hheld with hold | hnew
    · exact hold
    · exact absurd hnew (hfresh c hpending)
  · rintro ⟨hheld, hbucket⟩
    refine hm.others _ hvalid (fun c' hc' heq => ?_) hheld hbucket
    exact (List.pairwise_append.mp hdistinct).2.2 c' hc' c hc (heq ▸ hvalid) heq

theorem traced {k : ℕ} (hfresh : ∀ l < k, TokenFresh (stateAt config es l)) :
    Traced config es k := by
  induction k with
  | zero =>
      intro c hc
      cases hc
  | succ k ih =>
      intro c hc hvalid
      have hbefore : ∀ l < k, TokenFresh (stateAt config es l) :=
        fun l hl => hfresh l (Nat.lt_succ_of_lt hl)
      obtain ⟨ended, started, kept, hmoves⟩ := moves_at hbefore
      rcases List.mem_append.mp (hmoves.after.mem_iff.mp hc) with hnew | hold
      · obtain ⟨hgrant, hheld⟩ := (hmoves.fresh c hnew).2.2 hvalid
        refine ⟨k, Nat.lt_succ_self k, hgrant.reserved, fun _ l hkl hlk => ?_, fun _ => hheld⟩
        obtain rfl : l = k + 1 := by omega
        exact GlobalShareCache.hasHeight_of_held hheld
      · have hpending := hmoves.before.mem_iff.mpr (List.mem_append_right ended hold)
        obtain ⟨i, hik, hreserved, hheld⟩ := ih hbefore c hpending hvalid
        refine ⟨i, by omega, hreserved, ?_⟩
        rw [hmoves.held_kept (sound_at hbefore) (hfresh k (Nat.lt_succ_self k)) hold hvalid, hheld,
          BucketKept.snoc (by omega)]

/-- A reservation that no pending share owns stays as long as its bucket is kept. -/
theorem remains_held {r : Reservation} {i k : ℕ} (hik : i ≤ k)
    (hfresh : ∀ l < k, TokenFresh (stateAt config es l)) (hvalid : r.valid = true)
    (hheld : held (stateAt config es i).cache r = true)
    (hfree : ∀ c ∈ callbacks (stateAt config es i).verifier, owned c ≠ r)
    (hbucket : BucketKept config es r i k) :
    held (stateAt config es k).cache r = true ∧
      ∀ c ∈ callbacks (stateAt config es k).verifier, owned c ≠ r := by
  induction k with
  | zero =>
      obtain rfl := Nat.le_zero.mp hik
      exact ⟨hheld, hfree⟩
  | succ k ih =>
      rcases Nat.le_succ_iff.mp hik with hle | rfl
      · obtain ⟨hbefore, hlast⟩ := (BucketKept.snoc hle).mp hbucket
        have hfresh' : ∀ l < k, TokenFresh (stateAt config es l) :=
          fun l hl => hfresh l (Nat.lt_succ_of_lt hl)
        obtain ⟨hstill, hothers⟩ := ih hle hfresh' hbefore
        obtain ⟨ended, started, kept, hmoves⟩ := moves_at hfresh'
        refine ⟨hmoves.others r hvalid (fun c hc => ?_) hstill hlast, fun c hc heq => ?_⟩
        · exact hothers c (hmoves.before.mem_iff.mpr (List.mem_append_left _ hc))
        · rcases List.mem_append.mp (hmoves.after.mem_iff.mp hc) with hnew | hold
          · have hgrant := ((hmoves.fresh c hnew).2.2 (heq ▸ hvalid)).1.fresh
            rw [heq, hstill] at hgrant
            cases hgrant
          · exact hothers c (hmoves.before.mem_iff.mpr (List.mem_append_right _ hold)) heq
      · exact ⟨hheld, hfree⟩

/-- The verdict on a share that was pending. -/
theorem Moves.verdict_ended (hm : Moves config slipped s s' out ended started kept)
    (hs : Sound config s) (hfresh : TokenFresh s) {o : Outcome} {c : Callback} (hc : c ∈ ended)
    (hreports : Reports o c) (hvalid : o.reservation.valid = true)
    (hheld : held s'.cache o.reservation = true) :
    held s.cache o.reservation = true ∧
      ∀ c' ∈ callbacks s'.verifier, owned c' ≠ o.reservation := by
  have hpending : c ∈ callbacks s.verifier := hm.before.mem_iff.mpr (List.mem_append_left _ hc)
  have howned : owned c = o.reservation := hreports.reservation.symm
  have hdistinct := distinct_perm hm.before hs.owned.distinct
  have hbefore : held s.cache o.reservation = true := by
    rcases hm.grown _ hheld with hold | hnew
    · exact hold
    · exact absurd hnew (howned ▸ hfresh c hpending)
  refine ⟨hbefore, fun c' hc' heq => ?_⟩
  rcases List.mem_append.mp (hm.after.mem_iff.mp hc') with hnew | hold
  · have hgrant := ((hm.fresh c' hnew).2.2 (heq ▸ hvalid)).1.fresh
    rw [heq, hbefore] at hgrant
    cases hgrant
  · exact (List.pairwise_append.mp hdistinct).2.2 c hc c' hold (howned ▸ hvalid)
      (howned.trans heq.symm)

/-- The life of the reservation of a daemon share. An accepted share was granted one, which
the cache holds at the verdict unless the share slipped or its bucket was dropped before, and
then for as long as the bucket is kept. A share that the infrastructure failed has none
afterwards. -/
theorem reservation_lifecycle {n : ℕ} (hfresh : ∀ l < n, TokenFresh (stateAt config es l)) {j : ℕ}
    (hj : j < n) {o : Outcome} (ho : .ended o ∈ (ShareVerification.machine config).emitted es j)
    (hdaemon : o.daemon = true) :
    (accepted o.verdict = true → ∃ i ≤ j,
        .reserved o.key o.shareId o.reservation ∈ (ShareVerification.machine config).emitted es i ∧
        (o.heldThen = true ↔ slips config (stateAt config es j) (es j) = false ∧
          BucketKept config es o.reservation i j) ∧
        (o.heldThen = true → ∀ k, j < k → k ≤ n → BucketKept config es o.reservation j k →
          held (stateAt config es k).cache o.reservation = true)) ∧
      (failed o.verdict = true → held (stateAt config es (j + 1)).cache o.reservation = false) := by
  have hbefore : ∀ l < j, TokenFresh (stateAt config es l) := fun l hl => hfresh l (by omega)
  have hsound := sound_at hbefore
  obtain ⟨ended, started, kept, hmoves⟩ := moves_at hbefore
  obtain ⟨horigin, hthen, hfailed⟩ := hmoves.outcomes o ho
  refine ⟨fun ha => ?_, hfailed⟩
  have hlater : o.reservation.valid = true →
      (o.heldThen = true → ∀ c ∈ callbacks (stateAt config es (j + 1)).verifier,
        owned c ≠ o.reservation) →
      o.heldThen = true → ∀ k, j < k → k ≤ n → BucketKept config es o.reservation j k →
        held (stateAt config es k).cache o.reservation = true := by
    intro hvalid hfree ht k hjk hkn hbucket
    refine (remains_held hjk (fun l hl => hfresh l (by omega)) hvalid (hthen ha hvalid ht)
      (hfree ht) fun l hjl hlk => ?_).1
    exact hbucket l (by omega) hlk
  rcases horigin with ⟨c, hc, hreports, hpending⟩ | ⟨hnone, hgrant, haccepted⟩
  · have hmem : c ∈ callbacks (stateAt config es j).verifier :=
      hmoves.before.mem_iff.mpr (List.mem_append_left _ hc)
    have howned : owned c = o.reservation := hreports.reservation.symm
    have hvalid : o.reservation.valid = true := by
      rw [← howned]
      exact hsound.reserving c hmem (hreports.daemon ▸ hdaemon)
    obtain ⟨i, hij, hreserved, hheld⟩ := traced hbefore c hmem (howned ▸ hvalid)
    rw [howned, ← hreports.key, ← hreports.shareId] at hreserved
    rw [howned] at hheld
    obtain ⟨hunslipped, hkeeps⟩ := hpending ha hvalid
    have hverdict := fun ht => hmoves.verdict_ended hsound (hfresh j hj) hc hreports hvalid
      (hthen ha hvalid ht)
    refine ⟨i, by omega, hreserved, ⟨fun ht => ⟨hunslipped, hheld.mp (hverdict ht).1⟩,
      fun h => hkeeps (hheld.mpr h.2)⟩, hlater hvalid fun ht => (hverdict ht).2⟩
  · obtain ⟨hreserving, hheld⟩ := haccepted ha
    have hvalid := hreserving hdaemon
    have hgrant := hgrant hvalid
    have hempty : BucketKept config es o.reservation j j := fun l hl hl' => by omega
    refine ⟨j, le_rfl, hgrant.reserved, ?_, hlater hvalid fun _ c hc heq => ?_⟩
    · rw [hheld hvalid, Bool.not_eq_true', and_iff_left hempty]
    · rw [hnone] at hmoves
      have hpending : c ∈ callbacks (stateAt config es j).verifier :=
        hmoves.before.mem_iff.mpr (List.mem_append_right _ (hmoves.after.mem_iff.mp hc))
      exact hfresh j hj c hpending (heq ▸ hgrant.token)

end Runs

section Scenario

open ShareVerification (Event)

def guarded : Config where
  verifier := some
    { timeoutMs := 5000
      maxQueue := 1024
      maxPendingPerMiner := 64
      candidateLimit := 1
      globalCandidateLimit := 16
      emergencyCandidateLimit := 4
      maxQueue_le := RandomXVerifier.scenarioQueue_le
      maxPendingPerMiner_le := RandomXVerifier.scenarioPending_le }

def seedHash : String := String.ofList (List.replicate 62 '0' ++ ['a', 'a'])

def daemonJob : Job :=
  { algorithm := Algorithm.RX_0, id := "a", diff := 1000, height := 10,
    rawBlob := String.ofList (List.replicate 152 '0'), rawSeedHash := seedHash,
    templateEntropy := String.ofList (List.replicate 32 '0'), templateSourceId := 1 }

def submission (nonce result : String) : Json := .obj [("id", .str "m1"), ("job_id", .str "a"),
  ("nonce", .str nonce), ("result", .str result)]

def response (id : ℕ) (fields : List (String × Json)) : Json :=
  .obj ([("v", .int 1), ("id", .int id), ("ok", .bool true)] ++ fields)

def helloAnswer : Json := response 1 [("service", .str "xmrig-randomx-verifier"),
  ("mode", .str "fast"), ("allow_light_fallback", .bool false), ("max_frame", .int 16384),
  ("vm_pool_size", .int 2), ("capabilities", .arr [.str "prepare_seed", .str "release_seed",
    .str "verify", .str "stats"])]

/-- The verifier is connected and holds the seed of the job that the miner works on. -/
def prepared : List Event := [.startVerifier, .onConnect true, .frame (some helloAnswer),
  .prepareSeed seedHash,
  .frame (some (response 3 [("seed_hash", .str seedHash), ("state", .str "ready")])),
  .connect "m0", .connect "m1", .login 1, .assign 1 1 false 10 0, .setJob 1 daemonJob (-1) {},
  .observeHeight 1 10]

def run (script : List Event) : ℕ → ShareVerification.Env × Event :=
  follow (script.map fun event => ({}, event)) ({}, .advance 0)

/-- A result below every target, so that its share claims to be a block. -/
def candidate (first : Char) : String := String.ofList (first :: List.replicate 63 '0')

/-- The verifier is lost, and a miner over its budget finds another candidate. -/
def overBudgetRun : List Event := prepared ++ [.closed "lost",
  .submit 1 1 (submission "01000000" (candidate '1')),
  .submit 1 2 (submission "02000000" (candidate '2'))]

def candidateReservation : Reservation :=
  ⟨List.replicate 16 0 ++ [0x20] ++ List.replicate 31 0, 1, 10, 2⟩

theorem over_budget_candidate_unprotected :
    ¬ ∀ (config : Config) (es : ℕ → ShareVerification.Env × Event) (i j : ℕ) (o : Outcome),
      i ≤ j → .reserved o.key o.shareId o.reservation ∈
        (ShareVerification.machine config).emitted es i →
      BucketKept config es o.reservation i j →
      .ended o ∈ (ShareVerification.machine config).emitted es j → o.daemon = true →
      (accepted o.verdict = true → o.heldThen = true ∧
        ∀ k, j < k → BucketKept config es o.reservation j k →
          held (stateAt config es k).cache o.reservation = true) ∧
      (failed o.verdict = true →
        held (stateAt config es (j + 1)).cache o.reservation = false) := by
  intro h
  obtain ⟨haccepted, -⟩ := h guarded (run overBudgetRun) 13 13
    ⟨1, 2, true, candidateReservation, .submitted, false, false⟩ le_rfl (by decide +kernel)
    (fun l hl hl' => by omega) (by decide +kernel) rfl
  exact absurd (haccepted rfl).1 (by decide)

def lowShare : String :=
  String.ofList (List.replicate 48 '0' ++ "5c8fc2f5285c8f02".toList)

/-- A share is verified, and the answer confirms it. -/
def creditedRun : List Event := prepared ++ [.submit 1 1 (submission "01000000" lowShare),
  .frame (some (response 4 [("hash", .str lowShare), ("match", .bool true),
    ("queue_ms", .int 1), ("hash_ms", .int 2), ("total_ms", .int 3)]))]

def lowReservation : Reservation :=
  ⟨List.replicate 40 0 ++ [0x5c, 0x8f, 0xc2, 0xf5, 0x28, 0x5c, 0x8f, 0x02], 1, 10, 1⟩

theorem reservation_lifecycle_credited :
    ∃ i ≤ 12, .reserved 1 1 lowReservation ∈
        (ShareVerification.machine guarded).emitted (run creditedRun) i ∧
      ∀ k, 12 < k → k ≤ 13 → BucketKept guarded (run creditedRun) lowReservation 12 k →
        held (stateAt guarded (run creditedRun) k).cache lowReservation = true := by
  have hcredited : ((ShareVerification.machine guarded).emitted (run creditedRun) 12).any
      (fun
        | .ended o => o.key = 1 && o.shareId = 1 && o.daemon && o.reservation = lowReservation &&
            accepted o.verdict && o.heldThen
        | .reserved .. => false) = true := by decide +kernel
  obtain ⟨observation, ho, hcredited⟩ := List.any_eq_true.mp hcredited
  cases observation with
  | reserved => cases hcredited
  | ended o =>
      simp only [Bool.and_eq_true, decide_eq_true_eq] at hcredited
      obtain ⟨⟨⟨⟨⟨hkey, hid⟩, hdaemon⟩, hres⟩, ha⟩, hthen⟩ := hcredited
      obtain ⟨haccepted, -⟩ := @reservation_lifecycle guarded (run creditedRun) 13
        (by decide +kernel) 12 (by decide) o ho hdaemon
      obtain ⟨i, hi, hreserved, -, hkept⟩ := haccepted ha
      rw [hkey, hid, hres] at hreserved
      rw [hres] at hkept
      exact ⟨i, hi, hreserved, hkept hthen⟩

end Scenario

end XmrigProxy.ReservationRuns
