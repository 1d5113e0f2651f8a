import XmrigProxy.ShareVerification
import XmrigProxy.VerifierAnswers

/-! The life of a reservation, from the duplicate check that grants it to the verdict on its
share. Every completion releases at most the reservations of its own share, no two pending
shares own the same held reservation, and a share that is destroyed without a verdict that
retains it gives its reservation back. -/
namespace XmrigProxy.ReservationLifecycle

open GlobalShareCache (Reservation hasHeight held Consistent)
open ShareVerification

/-- The share counts locally, or its event was accepted for upstream submission. -/
def accepted : Verdict → Bool
  | .submitted | .credited _ _ | .creditedUnverified => true
  | _ => false

/-- The miner is answered that the infrastructure failed, or is not answered at all. -/
def failed : Verdict → Bool
  | .refused error => isInfrastructureFailure error || error = .CandidateRateLimit
  | .abandoned => true
  | _ => false

section Completions

variable {env : Env} {key : ℕ} {share : PendingShare} {s : System} {g : Reservation}
  {before : GlobalShareCache.State} {granted : Reservation → Prop}

/-- While the share with reservation `g` is handled, no other reservation is lost, and only
those granted to it are new. -/
structure Handling (before : GlobalShareCache.State) (granted : Reservation → Prop)
    (g : Reservation) (share : PendingShare) (s : System) : Prop where
  consistent : Consistent s.cache
  buckets : ∀ src h, hasHeight s.cache src h = hasHeight before src h
  own : share.submission.globalShare = g
  others : ∀ r, r ≠ g → held before r = true →
    held s.cache r = true ∧ r ≠ share.submission.computedGlobal
  grown : ∀ r, held s.cache r = true → held before r = true ∨ granted r

/-- A completion whose verdict agrees with what becomes of the reservation. -/
structure Concluded (before : GlobalShareCache.State) (granted : Reservation → Prop)
    (g : Reservation) (c : Completion) : Prop
    extends Handling before granted g c.share c.system where
  accepted : accepted c.verdict = true → c.share.retainSubmission = true ∧
    c.heldThen = held c.system.cache g ∧ (held before g = true → c.heldThen = true)
  failed : failed c.verdict = true → c.share.retainSubmission = false

theorem Handling.congr {s' : System} (h : Handling before granted g share s)
    (hcache : s'.cache = s.cache) : Handling before granted g share s' :=
  ⟨hcache ▸ h.consistent, hcache ▸ h.buckets, h.own, hcache ▸ h.others, hcache ▸ h.grown⟩

@[simp] theorem cache_shutdown (key : ℕ) (s : System) : (shutdown key s).cache = s.cache := rfl

@[simp] theorem cache_reply (env : Env) (key shareId : ℕ) (s : System) :
    (reply env key shareId s).cache = s.cache := by
  unfold reply
  split <;> rfl

theorem Handling.release (h : Handling before granted g share s) {s' : System}
    (hcache : s'.cache = GlobalShareCache.release share.submission.computedGlobal
      (GlobalShareCache.release share.submission.globalShare s.cache)) :
    Handling before granted g share s' := by
  refine ⟨?_, fun src height => ?_, h.own, fun r hr hheld => ?_, fun r hheld => h.grown r ?_⟩
  · rw [hcache]
    exact GlobalShareCache.consistent_release _ (GlobalShareCache.consistent_release _ h.consistent)
  · rw [hcache, GlobalShareCache.hasHeight_release, GlobalShareCache.hasHeight_release]
    exact h.buckets src height
  · obtain ⟨hstill, hne⟩ := h.others r hr hheld
    refine ⟨?_, hne⟩
    rw [hcache, GlobalShareCache.held_release, GlobalShareCache.held_release, hstill, h.own]
    simp [hr, hne]
  · rw [hcache, GlobalShareCache.held_release, GlobalShareCache.held_release] at hheld
    simp only [Bool.and_eq_true] at hheld
    exact hheld.1.1

theorem Handling.forget (h : Handling before granted g share s) :
    Handling before granted g share (forgetSubmission key share.submission s) := by
  unfold forgetSubmission
  split
  · exact h
  · next m _ =>
    apply h.release
    dsimp only
    unfold Miner.forgetSubmission
    dsimp only
    split
    · rfl
    · split <;> rfl

theorem Handling.retain (h : Handling before granted g share s) :
    Handling before granted g (retainShare share) s :=
  ⟨h.consistent, h.buckets, h.own, h.others, h.grown⟩

theorem Handling.conclude (h : Handling before granted g share s) {verdict : Verdict}
    (haccepted : accepted verdict = true → share.retainSubmission = true ∧
      (held before g = true → held s.cache g = true))
    (hfailed : failed verdict = true → share.retainSubmission = false) :
    Concluded before granted g (conclude share verdict s) := by
  refine ⟨h, fun ha => ?_, hfailed⟩
  obtain ⟨hretain, hown⟩ := haccepted ha
  have hthen : (ShareVerification.conclude share verdict s).heldThen = held s.cache g := by
    rw [ShareVerification.conclude, h.own]
  exact ⟨hretain, hthen, fun hheld => hthen.trans (hown hheld)⟩

theorem Handling.reject (h : Handling before granted g share s) {error : Error}
    (hfailed : failed (.refused error) = true → share.retainSubmission = false) :
    Concluded before granted g (rejectPendingShare env key share error s) :=
  (h.congr (cache_reply env key share.shareId s)).conclude (by simp [accepted]) hfailed

theorem Handling.submit (h : Handling before granted g share s) (result : String)
    (hown : held before g = true → held s.cache g = true)
    (hretain : share.retainSubmission = false) :
    Concluded before granted g (submitPendingShare env key share result s) := by
  have hanswer : (env.dispatch (shareRequest share result)).error ≠ .CandidateRateLimit := by
    cases env.dispatch (shareRequest share result) <;> decide
  unfold submitPendingShare
  dsimp only
  split
  · exact h.retain.conclude (fun _ => ⟨rfl, hown⟩) (by simp [failed])
  · have hreply := h.congr (cache_reply env key share.shareId s)
    split
    · exact hreply.forget.conclude (by simp [accepted]) fun _ => hretain
    · next hinfra =>
      exact hreply.retain.conclude (by simp [accepted]) (by simp [failed, hinfra, hanswer])

theorem Handling.failVerification (h : Handling before granted g share s)
    (options : RandomXVerifier.Options) (hown : held before g = true → held s.cache g = true)
    (hretain : share.retainSubmission = false) :
    Concluded before granted g (failVerification env options key share s) := by
  have hverifier : ∀ v, Handling before granted g share { s with verifier := v } :=
    fun v => h.congr rfl
  unfold ShareVerification.failVerification
  split
  · dsimp only
    split
    · exact (hverifier _).submit share.claimedHash hown hretain
    · exact (hverifier _).forget.reject fun _ => hretain
  · exact h.forget.reject fun _ => hretain

theorem Handling.decideShare (h : Handling before granted g share s) (hash : String) (exact : Bool)
    (hown : held before g = true → held s.cache g = true)
    (hretain : share.retainSubmission = false) :
    Concluded before granted g (decideShare env key share hash exact s) := by
  unfold ShareVerification.decideShare
  dsimp only
  split
  · exact h.submit hash hown hretain
  · split
    · exact h.retain.reject (by simp [failed, isInfrastructureFailure])
    · split
      · exact h.retain.reject (by simp [failed, isInfrastructureFailure])
      · split
        · exact h.retain.reject (by simp [failed, isInfrastructureFailure])
        · have hreply := h.congr (cache_reply env key share.shareId s)
          exact hreply.retain.conclude (fun _ => ⟨rfl, by rwa [cache_reply]⟩) (by simp [failed])

/-- A fresh share at the start of its completion. -/
structure Pristine (share : PendingShare) : Prop where
  retain : share.retainSubmission = false
  computed : share.submission.computedGlobal = {}

theorem handling_start (hc : Consistent s.cache) (hp : Pristine share) :
    Handling s.cache granted share.submission.globalShare share s := by
  refine ⟨hc, fun _ _ => rfl, rfl, fun r _ hheld => ⟨hheld, ?_⟩, fun r => Or.inl⟩
  rintro rfl
  rw [hp.computed] at hheld
  cases hheld

theorem handling_reserveComputed (hc : Consistent s.cache) (hp : Pristine share)
    (hash : String) :
    let r := reserveComputed share hash s
    Handling s.cache (fun r => r.token = GlobalShareCache.nextToken s.cache.sequence)
        share.submission.globalShare r.2.1 r.2.2 ∧
      r.2.1.retainSubmission = false ∧
      (held s.cache share.submission.globalShare = true →
        held r.2.2.cache share.submission.globalShare = true) := by
  intro r
  have hstart : Handling s.cache (fun r => r.token = GlobalShareCache.nextToken s.cache.sequence)
      share.submission.globalShare share s := handling_start hc hp
  cases hkey : GlobalShareCache.makeKey share.entropy hash with
  | none =>
      have hr : r = (.invalid, share, s) := by simp [r, reserveComputed, hkey]
      rw [hr]
      exact ⟨hstart, hp.retain, id⟩
  | some newKey =>
      have hreserve : ∀ held' : Reservation, held s.cache held' = true →
          held (GlobalShareCache.reserve share.templateSourceId share.height newKey s.cache).2.2
            held' = true := by
        intro held' hheld
        rw [GlobalShareCache.held_reserve hc, hheld, Bool.true_or]
      simp only [r, reserveComputed, hkey]
      refine ⟨⟨GlobalShareCache.consistent_reserve _ _ _ hc,
        GlobalShareCache.hasHeight_reserve _ _ _ _, rfl,
        fun other _ hheld => ⟨hreserve other hheld, ?_⟩, fun r hheld => ?_⟩, hp.retain, hreserve _⟩
      rotate_left
      · rw [GlobalShareCache.held_reserve hc, Bool.or_eq_true, decide_eq_true_eq] at hheld
        rcases hheld with hold | ⟨haccepted, rfl⟩
        · exact Or.inl hold
        · right
          rw [(GlobalShareCache.reserve_accepted haccepted).2.1]
      rintro rfl
      rcases GlobalShareCache.reserve_cases share.templateSourceId share.height newKey s.cache with
        ⟨-, hempty, -⟩ | ⟨haccepted, -⟩
      · dsimp only at hheld
        rw [hempty] at hheld
        cases hheld
      · dsimp only at hheld
        rw [GlobalShareCache.not_held_of_accepted hc haccepted] at hheld
        cases hheld

theorem concluded_judgeShare (hc : Consistent s.cache) (hp : Pristine share) (hash : String) :
    Concluded s.cache (fun r => r.token = GlobalShareCache.nextToken s.cache.sequence)
      share.submission.globalShare (judgeShare env key share hash s) := by
  unfold judgeShare
  dsimp only
  split
  · obtain ⟨hreserved, hretain, hown⟩ := handling_reserveComputed hc hp hash
    split
    · exact hreserved.decideShare hash _ hown hretain
    · exact hreserved.retain.reject (by simp [failed, isInfrastructureFailure])
    · exact hreserved.forget.reject fun _ => hretain
    · exact hreserved.forget.reject fun _ => hretain
  · exact (handling_start hc hp).decideShare hash _ id hp.retain

theorem Concluded.mono {c : Completion} {granted' : Reservation → Prop}
    (h : Concluded before granted g c) (hsub : ∀ r, granted r → granted' r) :
    Concluded before granted' g c :=
  ⟨⟨h.consistent, h.buckets, h.own, h.others, fun r hheld => (h.grown r hheld).imp_right (hsub r)⟩,
    h.accepted, h.failed⟩

theorem concluded_completeVerification (options : RandomXVerifier.Options) (callback : Callback)
    (result : RandomXVerifier.Result) (hc : Consistent s.cache) (hp : Pristine callback.share) :
    Concluded s.cache (fun r => result.ok = true ∧
        r.token = GlobalShareCache.nextToken s.cache.sequence)
      callback.share.submission.globalShare
      (completeVerification env options callback result s) := by
  have hstart : Handling s.cache (fun r => result.ok = true ∧
      r.token = GlobalShareCache.nextToken s.cache.sequence)
      callback.share.submission.globalShare callback.share s := handling_start hc hp
  unfold completeVerification
  split
  · exact hstart.conclude (by simp [accepted]) fun _ => hp.retain
  · split
    · exact hstart.conclude (by simp [accepted]) fun _ => hp.retain
    · split
      · exact hstart.retain.reject (by simp [failed, isInfrastructureFailure])
      · split
        · exact hstart.failVerification options id hp.retain
        · next hok =>
          exact (concluded_judgeShare hc hp result.hash).mono fun r hr => ⟨by simpa using hok, hr⟩

theorem Handling.destroy (h : Handling before granted g share s) :
    Handling before granted g share (destroyShare share s) := by
  unfold destroyShare
  split
  · exact h
  · exact h.release rfl

/-- An outcome is that of the share of a callback. -/
structure Reports (o : Outcome) (c : Callback) : Prop where
  key : o.key = c.key
  shareId : o.shareId = c.share.shareId
  daemon : o.daemon = ofTemplate c.share.templateSourceId c.share.height
  reservation : o.reservation = c.share.submission.globalShare

/-- How a completed submission ends: no reservation but its own is affected, an accepted
share keeps its reservation, and a share that the infrastructure failed gives it back. -/
structure Ends (before : GlobalShareCache.State) (granted : Reservation → Prop)
    (callback : Callback) (s : System) (out : List Observation) : Prop where
  consistent : Consistent s.cache
  buckets : ∀ src h, hasHeight s.cache src h = hasHeight before src h
  others : ∀ r, r ≠ callback.share.submission.globalShare → held before r = true →
    held s.cache r = true
  grown : ∀ r, held s.cache r = true → held before r = true ∨ granted r
  outcome : ∃ o : Outcome, out = [.ended o] ∧ Reports o callback ∧
    o.heldAfter = held s.cache o.reservation ∧
    (accepted o.verdict = true → o.heldThen = o.heldAfter ∧
      (held before o.reservation = true → o.heldThen = true)) ∧
    (failed o.verdict = true → o.heldAfter = false)

theorem Concluded.finish {callback : Callback} {c : Completion}
    (h : Concluded before granted callback.share.submission.globalShare c) :
    Ends before granted callback (finish callback c).1 (finish callback c).2 := by
  have hdestroy := h.toHandling.destroy
  refine ⟨hdestroy.consistent, hdestroy.buckets, fun r hr hheld => (hdestroy.others r hr hheld).1,
    hdestroy.grown, _, rfl, ⟨rfl, rfl, rfl, rfl⟩, rfl, fun ha => ?_, fun hf => ?_⟩
  · obtain ⟨hretain, hthen, hown⟩ := h.accepted ha
    refine ⟨?_, hown⟩
    dsimp only
    rw [hthen, destroyShare, if_pos hretain]
  · have hretain := h.failed hf
    dsimp only
    rw [destroyShare, if_neg (by simp [hretain])]
    rw [GlobalShareCache.held_release, GlobalShareCache.held_release, h.own]
    simp

theorem ends_called (options : RandomXVerifier.Options) (callback : Callback)
    (result : RandomXVerifier.Result) (hc : Consistent s.cache) (hp : Pristine callback.share) :
    Ends s.cache (fun r => result.ok = true ∧
        r.token = GlobalShareCache.nextToken s.cache.sequence) callback
      (settle env options (.called callback result) s).1
      (settle env options (.called callback result) s).2 :=
  (concluded_completeVerification options callback result hc hp).finish

theorem ends_dropped (options : RandomXVerifier.Options) (callback : Callback)
    (hc : Consistent s.cache) (hp : Pristine callback.share) :
    Ends s.cache (fun _ => False) callback (settle env options (.dropped callback) s).1
      (settle env options (.dropped callback) s).2 := by
  have hstart : Handling s.cache (fun _ => False) callback.share.submission.globalShare
      callback.share s := handling_start hc hp
  exact (hstart.conclude (by simp [accepted]) fun _ => hp.retain).finish

end Completions

section Requests

variable (env : Env) (key shareId : ℕ) (share : PendingShare) (s : System)

/-- The jobs that a miner retains, with the number of jobs it was ever issued. -/
def issuances (s : System) (key : ℕ) : Option (ℕ × List Miner.TelemetryJob) :=
  (s.miners.find key).map fun m => (m.jobIssuanceSequence, m.telemetryJobs)

/-- The part of the state that no completion changes. -/
def requests (s : System) : Table ℕ (RandomXVerifier.Pending Callback) × Table ℕ ℕ × ℕ × ℕ × ℕ ×
    (ℕ → Option (ℕ × List Miner.TelemetryJob)) :=
  (s.verifier.pending, s.verifier.pendingByOwner, s.verifier.nextRequestId, s.shareSequence,
    s.nextKey, issuances s)

@[simp] theorem issuances_shutdown : issuances (shutdown key s) = issuances s := by
  funext k
  simp only [issuances, shutdown, Table.find_modify]
  split
  · next heq =>
    subst heq
    cases s.miners.find k <;> rfl
  · rfl

@[simp] theorem requests_shutdown : requests (shutdown key s) = requests s := by
  simp only [requests, issuances_shutdown]
  rfl

@[simp] theorem requests_reply : requests (reply env key shareId s) = requests s := by
  unfold reply
  split
  · exact requests_shutdown key s
  · rfl

@[simp] theorem requests_forgetSubmission (submission : Miner.SubmissionReservation) :
    requests (forgetSubmission key submission s) = requests s := by
  unfold forgetSubmission
  split
  · rfl
  · next m hm =>
    have hjobs : issuances { s with
        miners := s.miners.insert key (Miner.forgetSubmission submission m s.cache).1
        cache := (Miner.forgetSubmission submission m s.cache).2 } = issuances s := by
      funext k
      simp only [issuances, Table.find_insert]
      split
      · next heq =>
        subst heq
        rw [hm]
        simp only [Miner.forgetSubmission, Option.map_some]
        split
        · rfl
        · split <;> rfl
      · rfl
    simp only [requests, hjobs]

@[simp] theorem requests_destroyShare : requests (destroyShare share s) = requests s := by
  unfold destroyShare
  split <;> rfl

@[simp] theorem requests_emergency (options : RandomXVerifier.Options)
    (venv : RandomXVerifier.Env) :
    requests { s with verifier :=
      (RandomXVerifier.allowEmergencyCandidate options venv key s.verifier).2 } = requests s := by
  unfold RandomXVerifier.allowEmergencyCandidate
  split
  · rfl
  · dsimp only
    split <;> rfl

@[simp] theorem requests_rejectPendingShare (error : Error) :
    requests (rejectPendingShare env key share error s).system = requests s :=
  requests_reply env key share.shareId s

@[simp] theorem requests_submitPendingShare (result : String) :
    requests (submitPendingShare env key share result s).system = requests s := by
  unfold submitPendingShare
  dsimp only
  split
  · rfl
  · split <;> simp [conclude]

@[simp] theorem requests_decideShare (hash : String) (exact : Bool) :
    requests (decideShare env key share hash exact s).system = requests s := by
  unfold decideShare
  dsimp only
  split
  · simp
  · split
    · simp
    · split
      · simp
      · split <;> simp [conclude]

theorem requests_completeVerification (options : RandomXVerifier.Options) (callback : Callback)
    (result : RandomXVerifier.Result) :
    requests (completeVerification env options callback result s).system = requests s := by
  have hcomputed : ∀ hash, requests (reserveComputed callback.share hash s).2.2 = requests s := by
    intro hash
    unfold reserveComputed
    split <;> rfl
  unfold completeVerification
  split
  · rfl
  · split
    · rfl
    · split
      · simp
      · split
        · unfold failVerification
          split
          · dsimp only
            split <;> simp
          · simp
        · unfold judgeShare
          dsimp only
          split
          · split <;> simp [hcomputed]
          · simp

theorem requests_settle (options : RandomXVerifier.Options)
    (o : RandomXVerifier.Output Callback) : requests (settle env options o s).1 = requests s := by
  cases o with
  | called callback result =>
      simp [settle, finish, requests_completeVerification]
  | dropped callback => simp [settle, finish, conclude]
  | sent => rfl
  | settled => rfl
  | disconnected => rfl

end Requests

section Settling

variable {env : Env} {options : RandomXVerifier.Options}

def owned (c : Callback) : Reservation := c.share.submission.globalShare

/-- The callback that an output ends. -/
def endedCallback : RandomXVerifier.Output Callback → Option Callback
  | .called callback _ => some callback
  | .dropped callback => some callback
  | _ => none

def endedCallbacks (out : List (RandomXVerifier.Output Callback)) : List Callback :=
  out.filterMap endedCallback

/-- The callbacks in `live` have fresh shares, and no two own the same reservation. -/
structure Owned (s : System) (live : List Callback) : Prop where
  consistent : Consistent s.cache
  pristine : ∀ c ∈ live, Pristine c.share
  distinct : live.Pairwise fun c c' => (owned c).valid = true → owned c ≠ owned c'

/-- The order of the callbacks does not matter. -/
theorem distinct_perm {live live' : List Callback} (hp : live.Perm live')
    (h : live.Pairwise fun c c' => (owned c).valid = true → owned c ≠ owned c') :
    live'.Pairwise fun c c' => (owned c).valid = true → owned c ≠ owned c' := by
  refine (hp.pairwise_iff fun {c c'} hne hvalid heq => ?_).mp h
  exact hne (heq ▸ hvalid) heq.symm

/-- How a list of outputs is settled: other reservations survive, every ended callback is
reported, and only a success reserves anything new. -/
structure Settled (granted : Reservation → Prop) (s s' : System) (ended : List Callback)
    (obs : List Observation) : Prop where
  buckets : ∀ src h, hasHeight s'.cache src h = hasHeight s.cache src h
  others : ∀ r, r.valid = true → (∀ c ∈ ended, owned c ≠ r) → held s.cache r = true →
    held s'.cache r = true
  grown : ∀ r, held s'.cache r = true → held s.cache r = true ∨ granted r
  outcomes : ∀ ob ∈ obs, ∃ o : Outcome, ob = .ended o ∧ (∃ c ∈ ended, Reports o c) ∧
    (accepted o.verdict = true → o.reservation.valid = true →
      (held s.cache o.reservation = true → o.heldThen = true) ∧
      (o.heldThen = true → held s'.cache o.reservation = true)) ∧
    (failed o.verdict = true → held s'.cache o.reservation = false)

theorem settle_other {o : RandomXVerifier.Output Callback} (h : endedCallback o = none)
    (s : System) : settle env options o s = (s, []) := by
  cases o with
  | called => cases h
  | dropped => cases h
  | sent => rfl
  | settled => rfl
  | disconnected => rfl

theorem Ends.settled {granted : Reservation → Prop} {s s' : System} {c : Callback}
    {obs : List Observation} (h : Ends s.cache granted c s' obs) :
    Settled granted s s' [c] obs := by
  refine ⟨h.buckets, fun r _ hne hheld => ?_, h.grown, fun ob hob => ?_⟩
  · exact h.others r (Ne.symm (hne c List.mem_cons_self)) hheld
  · obtain ⟨o, hout, hreports, hafter, hacc, hfail⟩ := h.outcome
    rw [hout, List.mem_singleton] at hob
    refine ⟨o, hob, ⟨c, List.mem_cons_self, hreports⟩, fun ha _ => ?_, fun hf => ?_⟩
    · obtain ⟨hthen, hheld⟩ := hacc ha
      exact ⟨hheld, fun ht => by rw [← hafter, ← hthen, ht]⟩
    · rw [← hafter]
      exact hfail hf

theorem Settled.mono {granted granted' : Reservation → Prop} {s s' : System}
    {ended : List Callback} {obs : List Observation} (h : Settled granted s s' ended obs)
    (hsub : ∀ g, granted g → granted' g) : Settled granted' s s' ended obs :=
  ⟨h.buckets, h.others, fun g hheld => (h.grown g hheld).imp_right (hsub g), h.outcomes⟩

theorem Ends.owned {granted : Reservation → Prop} {s s' : System} {c : Callback}
    {live : List Callback} {obs : List Observation} (h : Ends s.cache granted c s' obs)
    (ho : Owned s (c :: live)) : Owned s' live :=
  ⟨h.consistent, fun c' hc' => ho.pristine c' (List.mem_cons_of_mem _ hc'),
    (List.pairwise_cons.mp ho.distinct).2⟩

/-- An output that brings no success reserves nothing. -/
theorem settle_ends {o : RandomXVerifier.Output Callback} {c : Callback} {s : System}
    (h : endedCallback o = some c) (hok : ∀ result, o = .called c result → result.ok = false)
    (hc : Consistent s.cache) (hp : Pristine c.share) :
    Ends s.cache (fun _ => False) c (settle env options o s).1 (settle env options o s).2 := by
  cases o with
  | called callback result =>
      obtain rfl : callback = c := Option.some.inj h
      have hends := @ends_called env s options callback result hc hp
      refine ⟨hends.consistent, hends.buckets, hends.others, fun r hheld => ?_, hends.outcome⟩
      rcases hends.grown r hheld with hold | ⟨hsuccess, -⟩
      · exact Or.inl hold
      · rw [hok result rfl] at hsuccess
        cases hsuccess
  | dropped callback =>
      obtain rfl : callback = c := Option.some.inj h
      exact ends_dropped options callback hc hp
  | sent => cases h
  | settled => cases h
  | disconnected => cases h

/-- Outputs that bring no success are settled one after another; each ended callback owns
a reservation of its own. -/
theorem settled_forEach (out : List (RandomXVerifier.Output Callback))
    (hok : ∀ c result, .called c result ∈ out → result.ok = false) (s : System)
    (live : List Callback) (h : Owned s (endedCallbacks out ++ live)) :
    let r := Handler.forEach (settle env options) out s
    Owned r.1 live ∧ requests r.1 = requests s ∧
      Settled (fun _ => False) s r.1 (endedCallbacks out) r.2 := by
  induction out generalizing s with
  | nil =>
      refine ⟨h, rfl, fun _ _ => rfl, fun _ _ _ hheld => hheld, fun _ => Or.inl, ?_⟩
      intro ob hob
      cases hob
  | cons o rest ih =>
      have hrestok : ∀ c result, .called c result ∈ rest → result.ok = false :=
        fun c result hmem => hok c result (List.mem_cons_of_mem _ hmem)
      cases ho : endedCallback o with
      | none =>
          have hended : endedCallbacks (o :: rest) = endedCallbacks rest := by
            simp [endedCallbacks, ho]
          rw [hended] at h ⊢
          have hstep : Handler.forEach (settle env options) (o :: rest) s =
              Handler.forEach (settle env options) rest s := by
            simp [Handler.forEach, Handler.seq, settle_other ho]
          rw [hstep]
          exact ih hrestok s h
      | some c =>
          have hended : endedCallbacks (o :: rest) = c :: endedCallbacks rest := by
            simp [endedCallbacks, ho]
          rw [hended] at h ⊢
          have hends := @settle_ends env options o c s ho
            (fun result heq => hok c result (heq ▸ List.mem_cons_self)) h.consistent
            (h.pristine c List.mem_cons_self)
          have hfirst := hends.settled
          have hother : ∀ c' ∈ endedCallbacks rest, (owned c).valid = true → owned c' ≠ owned c :=
            fun c' hc' hvalid => Ne.symm
              ((List.pairwise_cons.mp h.distinct).1 c' (List.mem_append_left _ hc') hvalid)
          obtain ⟨hlive, hrequests, hrest⟩ := ih hrestok _ (hends.owned h)
          refine ⟨hlive, hrequests.trans (requests_settle env s options o),
            fun src height => (hrest.buckets src height).trans (hends.buckets src height),
            fun r hvalid hne hheld => ?_, fun r hheld => ?_, fun ob hob => ?_⟩
          · refine hrest.others r hvalid (fun c' hc' => hne c' (List.mem_cons_of_mem _ hc')) ?_
            refine hfirst.others r hvalid (fun c' hc' => ?_) hheld
            rw [List.mem_singleton.mp hc']
            exact hne c List.mem_cons_self
          · rcases hrest.grown r hheld with hmiddle | hfalse
            · exact hfirst.grown r hmiddle
            · exact Or.inr hfalse
          · rcases List.mem_append.mp hob with hone | hmore
            · obtain ⟨oc, hob', ⟨c', hc', hreports⟩, hacc, hfail⟩ :=
                hfirst.outcomes ob hone
              obtain rfl := List.mem_singleton.mp hc'
              refine ⟨oc, hob', ⟨c', List.mem_cons_self, hreports⟩,
                fun ha hvalid => ?_, fun hf => ?_⟩
              · obtain ⟨hbefore, hafter⟩ := hacc ha hvalid
                refine ⟨hbefore, fun ht => hrest.others _ hvalid (fun c'' hc'' => ?_) (hafter ht)⟩
                rw [hreports.reservation] at hvalid ⊢
                exact hother c'' hc'' hvalid
              · rw [Bool.eq_false_iff]
                intro hheld
                rcases hrest.grown _ hheld with hmiddle | hfalse
                · rw [hfail hf] at hmiddle
                  cases hmiddle
                · exact hfalse
            · obtain ⟨oc, hob', ⟨c', hc', hreports⟩, hacc, hfail⟩ := hrest.outcomes ob hmore
              refine ⟨oc, hob', ⟨c', List.mem_cons_of_mem _ hc', hreports⟩,
                fun ha hvalid => ?_, hfail⟩
              obtain ⟨hbefore, hafter⟩ := hacc ha hvalid
              refine ⟨fun hheld => hbefore ?_, hafter⟩
              refine hfirst.others _ hvalid (fun c'' hc'' => ?_) hheld
              rw [hreports.reservation] at hvalid ⊢
              rw [List.mem_singleton.mp hc'']
              intro heq
              have hvalid' : (owned c).valid = true := heq ▸ hvalid
              exact hother c' hc' hvalid' heq.symm

/-- A share that is accepted was completed by a result. -/
theorem accepted_called (out : List (RandomXVerifier.Output Callback)) (s : System) (o : Outcome)
    (ho : .ended o ∈ (Handler.forEach (settle env options) out s).2)
    (ha : accepted o.verdict = true) : ∃ c result, .called c result ∈ out := by
  induction out generalizing s with
  | nil => cases ho
  | cons first rest ih =>
      rcases List.mem_append.mp ho with hone | hmore
      · cases first with
        | called c result => exact ⟨c, result, List.mem_cons_self⟩
        | dropped c =>
            have hone' := List.mem_singleton.mp hone
            simp only [ShareVerification.Observation.ended.injEq] at hone'
            rw [hone'] at ha
            cases ha
        | sent => cases hone
        | settled => cases hone
        | disconnected => cases hone
      · obtain ⟨c, result, hmem⟩ := ih _ hmore
        exact ⟨c, result, List.mem_cons_of_mem _ hmem⟩

end Settling

section Callbacks

open RandomXVerifier VerifierAccounting VerifierAnswers

def callbacks (v : State Callback) : List Callback :=
  v.pending.entries.map fun e => e.2.callback

theorem count_callbacks (v : State Callback) (c : Callback) :
    (callbacks v).count c = pendingCount v c := by
  simp only [callbacks, pendingCount, Table.count, List.count, List.countP_map, Function.comp_def]
  rfl

theorem count_endedCallbacks (out : List (Output Callback)) (c : Callback) :
    (endedCallbacks out).count c = finished c out := by
  induction out with
  | nil => rfl
  | cons o rest ih =>
      rw [finished_cons, ← ih]
      have hskip : endedCallback o = none → endedCallbacks (o :: rest) = endedCallbacks rest := by
        intro ho
        simp [endedCallbacks, ho]
      cases o with
      | called callback result =>
          by_cases hc : callback = c <;>
            simp [endedCallbacks, endedCallback, finished, isCalled, isDropped, hc, Nat.add_comm]
      | dropped callback =>
          by_cases hc : callback = c <;>
            simp [endedCallbacks, endedCallback, finished, isCalled, isDropped, hc, Nat.add_comm]
      | sent => simp [hskip rfl, finished, isCalled, isDropped]
      | settled => simp [hskip rfl, finished, isCalled, isDropped]
      | disconnected => simp [hskip rfl, finished, isCalled, isDropped]

/-- An operation that keeps the ledger ends callbacks of the table and keeps the others. -/
theorem perm_callbacks {options : Options} {f : Handler (State Callback) (Output Callback)}
    (hf : ∀ admitted, Handler.Preserves (VerifierAccounting.Ledger options admitted) f)
    {v : State Callback}
    (h : Accounted options v) : Accounted options (f v).1 ∧
      (callbacks v).Perm (endedCallbacks (f v).2 ++ callbacks (f v).1) := by
  have hl := hf (pendingCount v) v [] ⟨h, fun c => rfl⟩
  refine ⟨hl.accounted, List.perm_iff_count.mpr fun c => ?_⟩
  have hb := hl.balance c
  rw [List.count_append, count_callbacks, count_endedCallbacks, count_callbacks]
  simp only [List.nil_append] at hb
  omega

theorem preserves_verifierEvent (options : Options) (venv : RandomXVerifier.Env)
    (event : ShareVerification.Event) (admitted : Callback → ℕ) :
    Handler.Preserves (VerifierAccounting.Ledger options admitted)
      (verifierEvent options venv event) := by
  intro v tr h
  have hskip : VerifierAccounting.Ledger options admitted v (tr ++ []) := by simpa using h
  cases event with
  | startVerifier =>
      dsimp only [verifierEvent]
      split
      · exact hskip
      · have hq := undisturbed_connect (κ := Callback) venv { v with stopping := false }
        exact h.undisturbed ⟨hq.pending, hq.pendingByOwner, hq.nextRequestId, hq.finished⟩
  | stopVerifier => exact preserves_stop venv options admitted v tr h
  | tick => exact preserves_tick venv options admitted v tr h
  | onConnect accepted =>
      dsimp only [verifierEvent]
      split
      · exact preserves_onConnect venv options admitted accepted v tr h
      · exact hskip
  | frame doc =>
      dsimp only [verifierEvent]
      split
      · cases doc with
        | none => exact preserves_disconnect venv options admitted _ true v tr h
        | some doc => exact preserves_handleResponse venv options admitted doc v tr h
      · exact hskip
  | closed error => exact preserves_disconnect venv options admitted error true v tr h
  | prepareSeed seedHash =>
      exact (quiet_prepareSeed venv seedHash).preserves options admitted v tr h
  | destroy key => exact preserves_cancelOwner options admitted key v tr h
  | _ => exact hskip

/-- An event either brings one answer that completes a pending request, or no success. -/
theorem verifierEvent_cases (options : Options) (venv : RandomXVerifier.Env)
    (event : ShareVerification.Event) (v : State Callback) :
    (∃ doc id p, event = .frame (some doc) ∧ v.connected = true ∧ Answers v doc id p ∧
        verifierEvent options venv event v = complete id p (verifyResult venv doc id p) v) ∨
      Unanswered v (verifierEvent options venv event v).1
        (verifierEvent options venv event v).2 := by
  have h := unanswered_refl v
  have hrun : ∀ f : Handler (State Callback) (Output Callback),
      Handler.Preserves (Unanswered v) f → Unanswered v (f v).1 (f v).2 := by
    intro f hf
    simpa using hf v [] h
  cases event with
  | startVerifier =>
      right
      dsimp only [verifierEvent]
      split
      · exact h
      · exact h.frame (undisturbed_connect (κ := Callback) venv _).pending
  | stopVerifier => exact Or.inr (hrun _ (unanswered_stop v venv))
  | tick => exact Or.inr (hrun _ (unanswered_tick v venv options))
  | onConnect accepted =>
      right
      dsimp only [verifierEvent]
      split
      · exact hrun _ (unanswered_onConnect v venv accepted)
      · exact h
  | frame doc =>
      dsimp only [verifierEvent]
      cases hconnected : v.connected with
      | false => exact Or.inr h
      | true =>
          cases doc with
          | none => exact Or.inr (hrun _ (unanswered_disconnect v venv _ true))
          | some doc =>
              rcases handleResponse_cases venv doc v with ⟨id, p, ha, heq⟩ | hu
              · exact Or.inl ⟨doc, id, p, rfl, rfl, ha, heq⟩
              · exact Or.inr hu
  | closed error => exact Or.inr (hrun _ (unanswered_disconnect v venv error true))
  | prepareSeed seedHash =>
      exact Or.inr (hrun _ fun v tr h => h.undisturbed (quiet_prepareSeed venv seedHash v))
  | destroy key => exact Or.inr (hrun _ (unanswered_cancelOwner v key))
  | _ => exact Or.inr h

end Callbacks

end XmrigProxy.ReservationLifecycle
