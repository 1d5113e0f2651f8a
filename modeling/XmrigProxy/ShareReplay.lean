import Mathlib.Tactic.IntervalCases
import XmrigProxy.Library.Machine
import XmrigProxy.Miner

/-! Miners that share the cache of submitted shares. Jobs are issued with an entropy of
their own and may be delivered to any miner, in any order and at any height; templates are
observed, submissions checked and reservations released at any time. A reservation is
released by whoever still holds it when the verifier or the daemon could not be used, and
a share whose verification contradicts it reserves the computed identity as well. -/
namespace XmrigProxy.ShareReplay

open GlobalShareCache (Reservation Key hasHeight held entry)

structure System where
  now : ℕ := 0
  miners : Table ℕ Miner.State := ∅
  nextKey : ℕ := 0
  shareSequence : ℕ := 0
  cache : GlobalShareCache.State := {}

inductive Event where
  | advance (elapsed : ℕ)
  | connect (rpcId : String)
  | login (miner : ℕ)
  | assign (miner : ℕ) (mapperId : ℤ) (nicehash : Bool) (customDiff : ℕ) (fixedByte : UInt8)
  | setJob (miner job : ℕ) (extraNonce : ℤ) (issue : Miner.Issue)
  | forwardJob (miner job : ℕ) (issue : Miner.Issue)
  | clearTelemetryJobs (miner : ℕ)
  | close (miner : ℕ)
  | destroy (miner : ℕ)
  | observeHeight (sourceId height : ℕ)
  | submit (miner : ℕ) (id : ℤ) (params : Json)
  | release (reservation : Reservation)
  | reserveComputed (sourceId height : ℕ) (key : Key)

/-- `rememberSubmission` accepted a share of a daemon job. -/
structure Accepted where
  miner : ℕ
  reservation : Reservation
  deriving DecidableEq

variable (config : Miner.Config) (issued : ℕ → Job)

def update (key : ℕ) (f : Miner.State → Miner.Cache → Miner.State × Miner.Cache) (s : System) :
    System :=
  match s.miners.find key with
  | none => s
  | some m => { s with miners := s.miners.insert key (f m s.cache).1, cache := (f m s.cache).2 }

/-- The job that a submission names, and the outcome of its checks. -/
def examine (id : ℤ) (params : Json) (m : Miner.State) (s : System) :
    Error × Miner.SubmissionReservation × Miner.State × Miner.Cache :=
  let job := (params.text "job_id").bind fun jobId => Miner.findTelemetryJob s.now jobId m
  let request := Miner.submitRequest config id (s.shareSequence + 1) params job m
  Miner.checkSubmission config s.now params request job m s.cache

def submit (key : ℕ) (id : ℤ) (params : Json) (s : System) : System × List Accepted :=
  match s.miners.find key with
  | none => (s, [])
  | some m =>
      if m.stage ≠ .ready ∨ params.text "id" ≠ some m.rpcId then (s, [])
      else
        let (error, submission, m, cache) := examine config id params m s
        ({ s with
            miners := s.miners.insert key m
            shareSequence := s.shareSequence + 1
            cache := cache },
          if error = .NoError ∧ submission.globalShare.valid then
            [⟨key, submission.globalShare⟩] else [])

def step (s : System) : Event → System × List Accepted
  | .advance elapsed => ({ s with now := s.now + elapsed }, [])
  | .connect rpcId =>
      ({ s with
          miners := s.miners.insert s.nextKey { key := s.nextKey, rpcId := rpcId }
          nextKey := s.nextKey + 1 }, [])
  | .login key =>
      (update key (fun m cache =>
        (if m.stage = .waitLogin then { m with stage := .waitReady } else m, cache)) s, [])
  | .assign key mapperId nicehash customDiff fixedByte =>
      (update key (fun m cache => ({ m with mapperId, nicehash, customDiff, fixedByte }, cache)) s,
        [])
  | .setJob key job extraNonce issue =>
      (update key (Miner.setJob s.now issue (issued job) extraNonce) s, [])
  | .forwardJob key job issue => (update key (Miner.forwardJob s.now issue (issued job)) s, [])
  | .clearTelemetryJobs key => (update key Miner.clearTelemetryJobs s, [])
  | .close key => (update key (fun m cache => ({ m with stage := .closing }, cache)) s, [])
  | .destroy key =>
      ({ s with
          miners := s.miners.erase key
          cache := GlobalShareCache.removeOwner key s.cache }, [])
  | .observeHeight sourceId height =>
      ({ s with cache := GlobalShareCache.observeHeight sourceId height s.cache }, [])
  | .submit key id params => submit config key id params s
  | .release reservation => ({ s with cache := GlobalShareCache.release reservation s.cache }, [])
  | .reserveComputed sourceId height key =>
      ({ s with cache := (GlobalShareCache.reserve sourceId height key s.cache).2.2 }, [])

def machine : Machine System Event Accepted where
  init := {}
  next := step config issued

/-- Some miner retains an unexpired job that satisfies the condition. -/
def Retains (s : System) (P : Miner.TelemetryJob → Prop) : Prop :=
  ∃ key m job, s.miners.find key = some m ∧ job ∈ m.telemetryJobs ∧
    Miner.unexpired s.now job = true ∧ P job

def RetainsEntropy (s : System) (entropy : List UInt8) : Prop :=
  Retains s fun job => Hex.decode job.entropy.toList = some entropy

def RetainsHeight (s : System) (sourceId height : ℕ) : Prop :=
  Retains s fun job => job.templateSourceId = sourceId ∧ job.height = height

/-- The heights that the miner needs once it has the job: that of the job, and those of
the jobs that it goes on retaining and that the job does not make stale. -/
def neededHeights (now : ℕ) (job : Job) (m : Miner.State) : List ℕ :=
  job.height :: ((m.telemetryJobs.take (Miner.telemetryJobCount - 1)).filter fun retained =>
    retained.templateSourceId = job.templateSourceId && decide (job.height ≤ retained.height) &&
      Miner.unexpired now retained).map Miner.TelemetryJob.height

def neededBuckets (s : System) (key : ℕ) (issue : Miner.Issue) (job : Job) : List (ℕ × ℕ) :=
  match s.miners.find key with
  | none => []
  | some m =>
      if issue.written = true ∧ m.key ≠ 0 then (neededHeights s.now job m).map fun h =>
        (job.templateSourceId, h)
      else []

/-- The buckets that an event creates where they are missing. -/
def registered (s : System) : Event → List (ℕ × ℕ)
  | .setJob key job _ issue => neededBuckets s key issue (issued job)
  | .forwardJob key job issue => neededBuckets s key issue (issued job)
  | .observeHeight sourceId height => [(sourceId, height)]
  | _ => []

/-- Step `l` asks for a bucket that was there before and has been dropped, while the jobs
of its height may still be submitted. -/
def Revives (es : ℕ → Event) (l : ℕ) : Prop :=
  let s := (machine config issued).state es l
  ∃ sourceId height, (sourceId, height) ∈ registered issued s (es l) ∧
    hasHeight s.cache sourceId height = false ∧
    (∃ l' < l, hasHeight ((machine config issued).state es l').cache sourceId height = true) ∧
    RetainsHeight s sourceId height

/-- No two issued jobs carry the same 16 bytes of entropy. -/
def FreshEntropy : Prop :=
  ∀ n n' entropy, entropy.length = 16 →
    Hex.decode (issued n).templateEntropy.toList = some entropy →
    Hex.decode (issued n').templateEntropy.toList = some entropy → n = n'

section Steps

open GlobalShareCache (Maintains Consistent)

variable {config} {issued} {s : System} {now : ℕ} {job : Job} {blob : String} {m : Miner.State}
  {cache : Miner.Cache}

/-- What the checks, the deliveries and the retention rules need of a job that a miner
retains: it is one of the issued ones. -/
def FromIssued (issued : ℕ → Job) (retained : Miner.TelemetryJob) : Prop :=
  ∃ n, retained.entropy = (issued n).templateEntropy ∧ retained.height = (issued n).height ∧
    retained.templateSourceId = (issued n).templateSourceId

theorem retained_of_deliver {written : Bool} {retained : Miner.TelemetryJob}
    (h : retained ∈ (Miner.deliver now written job blob m cache).1.telemetryJobs) :
    retained ∈ m.telemetryJobs ∨ (retained.entropy = job.templateEntropy ∧
      retained.height = job.height ∧ retained.templateSourceId = job.templateSourceId) := by
  unfold Miner.deliver at h
  dsimp only at h
  split at h
  · left
    simpa using h
  · have hmem := List.mem_of_mem_take h
    rcases List.mem_cons.mp hmem with rfl | hold
    · exact Or.inr ⟨rfl, rfl, rfl⟩
    · exact Or.inl (by simpa using hold)

theorem eligibleHeights_retain (issuedDiff : ℕ) (hlatest : m.jobHeight = job.height) :
    Miner.eligibleHeights now job.templateSourceId
        (Miner.retain (Miner.telemetryOf now job blob issuedDiff m) m) =
      neededHeights now job m := by
  have hfresh : Miner.unexpired now (Miner.telemetryOf now job blob issuedDiff m) = true := by
    simp [Miner.unexpired, Miner.telemetryOf, Miner.telemetryJobTtl]
  have hkept : (Miner.retain (Miner.telemetryOf now job blob issuedDiff m) m).telemetryJobs =
      Miner.telemetryOf now job blob issuedDiff m ::
        m.telemetryJobs.take (Miner.telemetryJobCount - 1) := by
    simp [Miner.retain, Miner.telemetryJobCount]
  rw [Miner.eligibleHeights, hkept, List.filter_cons_of_pos]
  · simp [neededHeights, Miner.retain, Miner.telemetryOf, hlatest]
  · simp [hfresh]
    simp [Miner.retain, Miner.telemetryOf, hlatest]

theorem jobs_deliver : ∃ telemetry : Miner.TelemetryJob, telemetry.height = job.height ∧
    telemetry.templateSourceId = job.templateSourceId ∧
    (Miner.deliver now true job blob m cache).1.telemetryJobs =
      telemetry :: m.telemetryJobs.take (Miner.telemetryJobCount - 1) := by
  refine ⟨Miner.telemetryOf now job blob m.issuedDiff
    { Miner.sendJob m with jobHeight := job.height }, rfl, rfl, ?_⟩
  have hdiff : (Miner.sendJob m).issuedDiff = m.issuedDiff := by
    unfold Miner.sendJob
    split <;> rfl
  simp [Miner.deliver, Miner.rememberJob, Miner.retain, Miner.telemetryJobCount, hdiff]

theorem cache_deliver : (Miner.deliver now true job blob m cache).2 =
    if job.templateSourceId ≠ 0 ∧ job.height ≠ 0 then
      GlobalShareCache.setOwnerHeights m.key job.templateSourceId (neededHeights now job m) cache
    else cache := by
  have hneeded : neededHeights now job { Miner.sendJob m with jobHeight := job.height } =
      neededHeights now job m := by
    simp [neededHeights]
  simp only [Miner.deliver, Miner.rememberJob, eligibleHeights_retain, hneeded]
  simp [Miner.retain]

theorem maintains_deliver (written : Bool) :
    Maintains job.templateSourceId
      (if written = true ∧ m.key ≠ 0 then neededHeights now job m else []) cache
      (Miner.deliver now written job blob m cache).2 := by
  have hrefl : ∀ heights, Maintains job.templateSourceId heights cache cache := fun heights =>
    GlobalShareCache.maintains_refl _ heights cache
  cases written with
  | false => exact hrefl _
  | true =>
      rw [cache_deliver]
      by_cases hkey : m.key = 0
      · simpa [GlobalShareCache.setOwnerHeights, hkey] using hrefl []
      · rw [if_pos ⟨rfl, hkey⟩]
        by_cases hdaemon : job.templateSourceId ≠ 0 ∧ job.height ≠ 0
        · rw [if_pos hdaemon]
          exact GlobalShareCache.maintains_setOwnerHeights m.key _ _ cache
        · rw [if_neg hdaemon]
          exact hrefl _

theorem update_cache {key : ℕ} {f : Miner.State → Miner.Cache → Miner.State × Miner.Cache}
    {P : Miner.Cache → Prop} (hnone : s.miners.find key = none → P s.cache)
    (hsome : ∀ m, s.miners.find key = some m → P (f m s.cache).2) : P (update key f s).cache := by
  unfold update
  split
  · next h => exact hnone h
  · next m h => exact hsome m h

/-- The checks either leave the cache alone and accept no daemon share, or ask for one
reservation, under a key made from an unexpired job of the miner. -/
theorem examine_cases (id : ℤ) (params : Json) (m : Miner.State) (s : System) :
    let r := examine config id params m s
    r.2.2.1.telemetryJobs = m.telemetryJobs ∧
      ((r.2.1.globalShare.valid = false ∧ r.2.2.2 = s.cache) ∨
        ∃ job ∈ m.telemetryJobs, Miner.unexpired s.now job = true ∧ ∃ result key,
          GlobalShareCache.makeKey job.entropy result = some key ∧
          r.1 = Miner.duplicateError
            (GlobalShareCache.reserve job.templateSourceId job.height key s.cache).1 ∧
          r.2.1.globalShare =
            (GlobalShareCache.reserve job.templateSourceId job.height key s.cache).2.1 ∧
          r.2.2.2 = (GlobalShareCache.reserve job.templateSourceId job.height
            key s.cache).2.2) := by
  intro r
  let named := (params.text "job_id").bind fun jobId => Miner.findTelemetryJob s.now jobId m
  have hnamed : ∀ job, named = some job →
      job ∈ m.telemetryJobs ∧ Miner.unexpired s.now job = true := by
    intro job hjob
    obtain ⟨jobId, -, hfind⟩ := Option.bind_eq_some_iff.mp hjob
    have := List.find?_some hfind
    simp only [Bool.and_eq_true] at this
    exact ⟨List.mem_of_find?_eq_some hfind, this.2⟩
  rcases @Miner.checkSubmission_cases config s.now params
      (Miner.submitRequest config id (s.shareSequence + 1) params named m) named m s.cache with
    ⟨-, hrest⟩ | ⟨job, hjob, -, -, -, -, herror, hrest⟩
  · have hr : r.2 = ({}, m, s.cache) := hrest
    rw [hr]
    exact ⟨rfl, Or.inl ⟨rfl, rfl⟩⟩
  · obtain ⟨⟨seen, times, sequence, hm⟩, -, hcache⟩ := Miner.rememberSubmission_cases s.now job
      (Miner.submitRequest config id (s.shareSequence + 1) params named m).jobId
      (Miner.submitRequest config id (s.shareSequence + 1) params named m).nonce
      (Miner.submitRequest config id (s.shareSequence + 1) params named m).result m s.cache
    rw [← hrest] at hm hcache
    refine ⟨by rw [show r.2.2.1 = _ from hm], ?_⟩
    rcases hcache with ⟨hglobal, hcache⟩ | ⟨key, hkey, hresult, hglobal, hcache⟩
    · left
      exact ⟨by rw [show r.2.1.globalShare = {} from hglobal]; rfl, hcache⟩
    · right
      obtain ⟨result, -, hmake⟩ := Option.bind_eq_some_iff.mp hkey
      obtain ⟨hmem, hlive⟩ := hnamed job hjob
      exact ⟨job, hmem, hlive, result, key, hmake, by rw [← hresult]; exact herror, hglobal, hcache⟩

theorem submit_cases (key : ℕ) (id : ℤ) (params : Json) (s : System) :
    let r := submit config key id params s
    (r.1.cache = s.cache ∧ r.2 = []) ∨
      ∃ m job result share, s.miners.find key = some m ∧ job ∈ m.telemetryJobs ∧
        Miner.unexpired s.now job = true ∧
        GlobalShareCache.makeKey job.entropy result = some share ∧
        r.1.cache =
          (GlobalShareCache.reserve job.templateSourceId job.height share s.cache).2.2 ∧
        ∀ a ∈ r.2, a.reservation =
            (GlobalShareCache.reserve job.templateSourceId job.height share s.cache).2.1 ∧
          (GlobalShareCache.reserve job.templateSourceId job.height share s.cache).1 =
            .accepted := by
  intro r
  have hr : r = submit config key id params s := rfl
  unfold submit at hr
  split at hr
  · exact Or.inl (by simp [hr])
  · next m hm =>
    split at hr
    · exact Or.inl (by simp [hr])
    · obtain ⟨-, hcases⟩ := @examine_cases config id params m s
      rcases hcases with ⟨hglobal, hcache⟩ | ⟨job, hmem, hlive, result, share, hmake, herror,
        hglobal, hcache⟩
      · exact Or.inl (by simp [hr, hglobal, hcache])
      · right
        refine ⟨m, job, result, share, hm, hmem, hlive, hmake, by simp [hr, hcache], ?_⟩
        intro a ha
        simp only [hr, List.mem_ite_nil_right, List.mem_singleton] at ha
        obtain ⟨⟨hno, -⟩, rfl⟩ := ha
        refine ⟨hglobal, ?_⟩
        rw [herror] at hno
        cases hres : (GlobalShareCache.reserve job.templateSourceId job.height share s.cache).1
        all_goals simp [hres, Miner.duplicateError] at hno ⊢

/-- What one step does to the cache: it maintains the buckets, creating only registered
ones, or releases one reservation, or asks for one. -/
theorem step_cache (s : System) (e : Event) :
    (∃ sourceId heights, Maintains sourceId heights s.cache (step config issued s e).1.cache ∧
        ∀ h ∈ heights, (sourceId, h) ∈ registered issued s e) ∨
      (∃ r, e = .release r ∧
        (step config issued s e).1.cache = GlobalShareCache.release r s.cache) ∨
      ∃ sourceId height key, (step config issued s e).1.cache =
        (GlobalShareCache.reserve sourceId height key s.cache).2.2 := by
  have hrefl : ∀ cache, Maintains 0 [] cache cache :=
    fun cache => GlobalShareCache.maintains_refl 0 [] cache
  have hdeliver : ∀ key job issue (blob : Miner.State → String) (m' : Miner.State → Miner.State),
      (∀ m, (m' m).key = m.key ∧ (m' m).telemetryJobs = m.telemetryJobs) →
      let f := fun m => Miner.deliver s.now issue.written (issued job) (blob m) (m' m)
      ∃ sourceId heights, Maintains sourceId heights s.cache (update key f s).cache ∧
        ∀ h ∈ heights, (sourceId, h) ∈ neededBuckets s key issue (issued job) := by
    intro key job issue blob m' hsame f
    refine update_cache (P := fun cache => ∃ sourceId heights,
      Maintains sourceId heights s.cache cache ∧
        ∀ h ∈ heights, (sourceId, h) ∈ neededBuckets s key issue (issued job))
      (fun _ => ⟨0, [], hrefl _, by simp⟩) fun m hm => ?_
    refine ⟨_, _, maintains_deliver issue.written, fun h hh => ?_⟩
    have hneeded : neededHeights s.now (issued job) (m' m) =
        neededHeights s.now (issued job) m := by
      simp [neededHeights, (hsame m).2]
    rw [hneeded, (hsame m).1] at hh
    simp only [neededBuckets, hm]
    split at hh
    · next hc =>
      rw [if_pos hc]
      exact List.mem_map_of_mem hh
    · cases hh
  cases e with
  | advance elapsed => exact Or.inl ⟨0, [], hrefl _, by simp⟩
  | connect rpcId => exact Or.inl ⟨0, [], hrefl _, by simp⟩
  | login key =>
      exact Or.inl ⟨0, [], update_cache (fun _ => hrefl _) fun m _ => hrefl _, by simp⟩
  | assign key mapperId nicehash customDiff fixedByte =>
      exact Or.inl ⟨0, [], update_cache (fun _ => hrefl _) fun m _ => hrefl _, by simp⟩
  | setJob key job extraNonce issue =>
      exact Or.inl (hdeliver key job issue _ _ fun m => ⟨rfl, rfl⟩)
  | forwardJob key job issue => exact Or.inl (hdeliver key job issue _ _ fun m => ⟨rfl, rfl⟩)
  | clearTelemetryJobs key =>
      exact Or.inl ⟨0, [], update_cache (fun _ => hrefl _)
        fun m _ => GlobalShareCache.maintains_removeOwner m.key 0 s.cache, by simp⟩
  | close key =>
      exact Or.inl ⟨0, [], update_cache (fun _ => hrefl _) fun m _ => hrefl _, by simp⟩
  | destroy key =>
      exact Or.inl ⟨0, [], GlobalShareCache.maintains_removeOwner key 0 s.cache, by simp⟩
  | observeHeight sourceId height =>
      exact Or.inl ⟨sourceId, [height], GlobalShareCache.maintains_observeHeight _ _ _,
        by simp [registered]⟩
  | submit key id params =>
      rcases @submit_cases config key id params s with
        ⟨heq, -⟩ | ⟨-, job, -, share, -, -, -, -, heq, -⟩
      · refine Or.inl ⟨0, [], ?_, by simp⟩
        rw [step, heq]
        exact hrefl _
      · exact Or.inr (Or.inr ⟨_, _, share, heq⟩)
  | release r => exact Or.inr (Or.inl ⟨r, rfl, rfl⟩)
  | reserveComputed src h key => exact Or.inr (Or.inr ⟨src, h, key, rfl⟩)

/-- A bucket that appears was registered by the step. -/
theorem registered_of_created {e : Event} {sourceId height : ℕ}
    (hbefore : hasHeight s.cache sourceId height = false)
    (hafter : hasHeight (step config issued s e).1.cache sourceId height = true) :
    (sourceId, height) ∈ registered issued s e := by
  have hsame : ∀ cache : Miner.Cache, hasHeight cache sourceId height = true →
      hasHeight cache sourceId height = hasHeight s.cache sourceId height → False := by
    intro cache h heq
    rw [heq, hbefore] at h
    cases h
  rcases step_cache s e with ⟨src, heights, hm, hreg⟩ | ⟨r, -, heq⟩ | ⟨src, h, key, heq⟩
  · obtain ⟨after, ha⟩ := Option.isSome_iff_exists.mp hafter
    have hb : GlobalShareCache.bucket s.cache sourceId height = none := by
      simpa [hasHeight] using hbefore
    obtain ⟨rfl, hmem, -⟩ := hm.created _ _ after hb ha
    exact hreg height hmem
  · rw [heq] at hafter
    exact (hsame _ hafter (GlobalShareCache.hasHeight_release r s.cache _ _)).elim
  · rw [heq] at hafter
    exact (hsame _ hafter (GlobalShareCache.hasHeight_reserve src h key s.cache _ _)).elim

/-- An entry stays as long as its bucket does, unless its own reservation is released. -/
theorem entry_step {e : Event} {r : Reservation} (hc : Consistent s.cache)
    (hentry : entry s.cache r.sourceId r.height r.key = some r.token)
    (hrelease : e ≠ .release r)
    (hafter : hasHeight (step config issued s e).1.cache r.sourceId r.height = true) :
    entry (step config issued s e).1.cache r.sourceId r.height r.key = some r.token := by
  rcases step_cache s e with ⟨src, heights, hm, -⟩ | ⟨r', rfl, heq⟩ | ⟨src, h, key, heq⟩
  · obtain ⟨before, hb, hfind⟩ := Option.bind_eq_some_iff.mp hentry
    obtain ⟨after, ha⟩ := Option.isSome_iff_exists.mp hafter
    have hentries := hm.kept _ _ before after hb ha
    simp [entry, ha, hentries, hfind]
  · rw [heq, GlobalShareCache.entry_release, if_neg]
    · exact hentry
    · rintro ⟨hheld, hsrc, hheight, hkey⟩
      apply hrelease
      have htoken : entry s.cache r'.sourceId r'.height r'.key = some r'.token := by
        simp only [held, Bool.and_eq_true, decide_eq_true_eq] at hheld
        exact hheld.2
      rw [← hsrc, ← hheight, ← hkey, hentry] at htoken
      cases r
      cases r'
      simp_all
  · rw [heq, GlobalShareCache.entry_reserve, if_neg]
    · exact hentry
    · rintro ⟨haccepted, -, -, rfl⟩
      have hglobal := (hc.keys_iff r.key r.token).mpr ⟨_, _, hentry⟩
      have hnone := (GlobalShareCache.reserve_accepted haccepted).2.2.2.2
      rw [hnone] at hglobal
      cases hglobal

end Steps

section Runs

open GlobalShareCache (Consistent)

variable {config} {issued} {es : ℕ → Event}

structure Sound (issued : ℕ → Job) (s : System) : Prop where
  consistent : Consistent s.cache
  issued : ∀ key m job, s.miners.find key = some m → job ∈ m.telemetryJobs →
    FromIssued issued job

theorem consistent_step {s : System} (h : Consistent s.cache) (e : Event) :
    Consistent (step config issued s e).1.cache := by
  rcases step_cache s e with ⟨src, heights, hm, -⟩ | ⟨r, -, heq⟩ | ⟨src, height, key, heq⟩
  · exact hm.consistent h
  · exact heq ▸ GlobalShareCache.consistent_release r h
  · exact heq ▸ GlobalShareCache.consistent_reserve src height key h

theorem issued_update {s : System} {key : ℕ}
    {f : Miner.State → Miner.Cache → Miner.State × Miner.Cache} (h : Sound issued s)
    (hf : ∀ m, ∀ job ∈ (f m s.cache).1.telemetryJobs,
      job ∈ m.telemetryJobs ∨ FromIssued issued job) (k : ℕ) (m : Miner.State)
    (job : Miner.TelemetryJob) (hm : (update key f s).miners.find k = some m)
    (hjob : job ∈ m.telemetryJobs) : FromIssued issued job := by
  unfold update at hm
  split at hm
  · exact h.issued k m job hm hjob
  · next m₀ hm₀ =>
    rw [Table.find_insert] at hm
    split at hm
    · obtain rfl := Option.some.inj hm
      rcases hf m₀ job hjob with hold | hnew
      · exact h.issued key m₀ job hm₀ hold
      · exact hnew
    · exact h.issued k m job hm hjob

theorem sound_step {s : System} (h : Sound issued s) (e : Event) :
    Sound issued (step config issued s e).1 := by
  refine ⟨consistent_step h.consistent e, ?_⟩
  cases e with
  | advance elapsed => exact h.issued
  | connect rpcId =>
      intro k m job hm hjob
      rw [step, Table.find_insert] at hm
      split at hm
      · obtain rfl := Option.some.inj hm
        cases hjob
      · exact h.issued k m job hm hjob
  | login key =>
      refine issued_update h fun m job hjob => Or.inl ?_
      split at hjob <;> exact hjob
  | assign key mapperId nicehash customDiff fixedByte =>
      exact issued_update h fun m job hjob => Or.inl hjob
  | setJob key n extraNonce issue =>
      refine issued_update h fun m job hjob => ?_
      rcases retained_of_deliver hjob with hold | hnew
      · exact Or.inl hold
      · exact Or.inr ⟨n, hnew⟩
  | forwardJob key n issue =>
      refine issued_update h fun m job hjob => ?_
      rcases retained_of_deliver hjob with hold | hnew
      · exact Or.inl hold
      · exact Or.inr ⟨n, hnew⟩
  | clearTelemetryJobs key =>
      refine issued_update h fun m job hjob => ?_
      cases hjob
  | close key => exact issued_update h fun m job hjob => Or.inl hjob
  | destroy key =>
      intro k m job hm hjob
      rw [step, Table.find_erase] at hm
      split at hm
      · cases hm
      · exact h.issued k m job hm hjob
  | observeHeight sourceId height => exact h.issued
  | submit key id params =>
      intro k m job hm hjob
      rw [step, submit] at hm
      split at hm
      · exact h.issued k m job hm hjob
      · next m₀ hm₀ =>
        split at hm
        · exact h.issued k m job hm hjob
        · rw [Table.find_insert] at hm
          split at hm
          · obtain rfl := Option.some.inj hm
            rw [(examine_cases id params m₀ s).1] at hjob
            exact h.issued key m₀ job hm₀ hjob
          · exact h.issued k m job hm hjob
  | release r => exact h.issued
  | reserveComputed sourceId height key => exact h.issued

theorem reachable_sound (es : ℕ → Event) (k : ℕ) :
    Sound issued ((machine config issued).state es k) := by
  apply Machine.invariant
  · exact ⟨GlobalShareCache.consistent_initial, by simp [machine]⟩
  · intro s e h
    exact sound_step h e

theorem makeKey_spec {entropyHex resultHash : String} {key : Key}
    (h : GlobalShareCache.makeKey entropyHex resultHash = some key) :
    Hex.decode entropyHex.toList = some (key.take 16) ∧ (key.take 16).length = 16 := by
  unfold GlobalShareCache.makeKey at h
  split at h
  · next hlen =>
    obtain ⟨entropy, hentropy, h⟩ := Option.bind_eq_some_iff.mp h
    obtain ⟨result, -, rfl⟩ := Option.map_eq_some_iff.mp h
    have := Hex.decode_length hentropy
    have hsize : entropy.length = 16 := by
      rw [String.length_toList] at this
      omega
    rw [← hsize, List.take_left]
    exact ⟨hentropy, rfl⟩
  · cases h

/-- An accepted share: the miner's job, whose entropy the key begins with, and the
reservation that the cache granted for it. -/
theorem accepted_spec {k : ℕ} {a : Accepted} (ha : a ∈ (machine config issued).emitted es k) :
    let s := (machine config issued).state es k
    let s' := (machine config issued).state es (k + 1)
    entry s'.cache a.reservation.sourceId a.reservation.height a.reservation.key =
        some a.reservation.token ∧
      hasHeight s.cache a.reservation.sourceId a.reservation.height = true ∧
      s.cache.keys.find a.reservation.key = none ∧
      (a.reservation.key.take 16).length = 16 ∧
      ∃ n, Hex.decode (issued n).templateEntropy.toList = some (a.reservation.key.take 16) ∧
        (issued n).templateSourceId = a.reservation.sourceId ∧
        (issued n).height = a.reservation.height := by
  intro s s'
  have hs' : s' = (step config issued s (es k)).1 := rfl
  change a ∈ (step config issued s (es k)).2 at ha
  cases he : es k with
  | submit key id params =>
      rw [he] at ha hs'
      rcases submit_cases key id params s with ⟨-, hnone⟩ | ⟨m, job, result, share, hm, hmem, -,
        hmake, hcache, hout⟩
      · rw [step, hnone] at ha
        cases ha
      · obtain ⟨hreservation, haccepted⟩ := hout a ha
        obtain ⟨hheld, hr, -, hhas, hkeys⟩ := GlobalShareCache.reserve_accepted haccepted
        rw [← hreservation] at hheld hr
        obtain ⟨n, hentropy, hheight, hsource⟩ := (reachable_sound es k).issued key m job hm hmem
        obtain ⟨hdecode, hlen⟩ := makeKey_spec hmake
        rw [hr]
        refine ⟨?_, hhas, hkeys, hlen, n, hentropy ▸ hdecode, hsource.symm, hheight.symm⟩
        rw [hs', step, hcache, ← hr]
        simp only [held, Bool.and_eq_true, decide_eq_true_eq] at hheld
        exact hheld.2
  | _ =>
      rw [he] at ha
      cases ha

/-- While no step revives a dropped bucket, a daemon share is accepted once: a second
acceptance of its key comes after the release of the first reservation, or after a moment
at which no miner retained an unexpired job with that entropy. -/
theorem no_double_acceptance (hfresh : FreshEntropy issued) (es : ℕ → Event) {i j : ℕ}
    (hij : i < j) (hrevives : ∀ l < j, ¬ Revives config issued es l) {a b : Accepted}
    (ha : a ∈ (machine config issued).emitted es i) (hb : b ∈ (machine config issued).emitted es j)
    (hkey : b.reservation.key = a.reservation.key) :
    (∃ l, i < l ∧ l < j ∧ es l = .release a.reservation) ∨
      ∃ l, i < l ∧ l ≤ j ∧
        ¬ RetainsEntropy ((machine config issued).state es l) (a.reservation.key.take 16) := by
  by_contra hnever
  rw [not_or] at hnever
  obtain ⟨hreleased, hretained⟩ := hnever
  push Not at hreleased hretained
  obtain ⟨hentry, hhas, -, hlen, n, hentropy, hsource, hheight⟩ := accepted_spec ha
  obtain ⟨-, hhas', hkeys', -, n', hentropy', hsource', hheight'⟩ := accepted_spec hb
  rw [hkey] at hentropy' hkeys'
  obtain rfl : n = n' := hfresh n n' _ hlen hentropy hentropy'
  rw [← hsource', hsource, ← hheight', hheight] at hhas'
  -- a job with that entropy is a job of that source and height
  have hheights : ∀ l, i < l → l ≤ j → RetainsHeight ((machine config issued).state es l)
      a.reservation.sourceId a.reservation.height := by
    intro l hil hlj
    obtain ⟨key, m, job, hm, hmem, hlive, hdecode⟩ := hretained l hil hlj
    obtain ⟨n', hentropy', hheight', hsource'⟩ := (reachable_sound es l).issued key m job hm hmem
    rw [hentropy'] at hdecode
    obtain rfl : n = n' := hfresh n n' _ hlen hentropy hdecode
    exact ⟨key, m, job, hm, hmem, hlive, hsource'.trans hsource, hheight'.trans hheight⟩
  -- the bucket is never missing in between, since its revival is excluded
  have hbucket : ∀ l, i < l → l ≤ j → hasHeight ((machine config issued).state es l).cache
      a.reservation.sourceId a.reservation.height = true := by
    intro l hil hlj
    by_contra hmissing
    obtain ⟨k, hlk, hkj, hk, hafter⟩ := Machine.origin (m := machine config issued)
      (P := fun s => hasHeight s.cache a.reservation.sourceId a.reservation.height = true)
      hlj hmissing hhas'
    have hbefore : hasHeight ((machine config issued).state es k).cache
        a.reservation.sourceId a.reservation.height = false := by simpa using hk
    apply hrevives k hkj
    exact ⟨_, _, registered_of_created hbefore (hafter (k + 1) (Nat.lt_succ_self k) hkj), hbefore,
      ⟨i, by omega, hhas⟩, hheights k (by omega) (by omega)⟩
  have hstill : entry ((machine config issued).state es j).cache a.reservation.sourceId
      a.reservation.height a.reservation.key = some a.reservation.token := by
    refine Machine.persists (m := machine config issued) (P := fun s => entry s.cache
      a.reservation.sourceId a.reservation.height a.reservation.key = some a.reservation.token)
      (show i + 1 ≤ j from hij) hentry fun k hik hkj h => ?_
    exact entry_step (reachable_sound es k).consistent h (hreleased k hik hkj)
      (hbucket (k + 1) (by omega) hkj)
  have hglobal := ((reachable_sound es j).consistent.keys_iff _ _).mpr ⟨_, _, hstill⟩
  rw [hkeys'] at hglobal
  cases hglobal

end Runs

section Scenario

instance (s : System) (entropy : List UInt8) : Decidable (RetainsEntropy s entropy) :=
  decidable_of_iff (∃ e ∈ s.miners.entries, ∃ job ∈ e.2.telemetryJobs,
      Miner.unexpired s.now job = true ∧ Hex.decode job.entropy.toList = some entropy) <| by
    constructor
    · rintro ⟨⟨key, m⟩, hm, job, hjob, hlive, hdecode⟩
      exact ⟨key, m, job, (Table.mem_entries _).mp hm, hjob, hlive, hdecode⟩
    · rintro ⟨key, m, job, hm, hjob, hlive, hdecode⟩
      exact ⟨(key, m), (Table.mem_entries _).mpr hm, job, hjob, hlive, hdecode⟩

/-- A job at height 10, its successor at height 11 and a replacement back at height 10. -/
def reorganised : ℕ → Job
  | 0 => { algorithm := Algorithm.RX_0, id := "a", diff := 1000, height := 10, rawBlob := "",
           templateEntropy := "000000000000000000000000000000a0", templateSourceId := 1 }
  | 1 => { algorithm := Algorithm.RX_0, id := "b", diff := 1000, height := 11, rawBlob := "",
           templateEntropy := "000000000000000000000000000000b0", templateSourceId := 1 }
  | 2 => { algorithm := Algorithm.RX_0, id := "c", diff := 1000, height := 10, rawBlob := "",
           templateEntropy := "000000000000000000000000000000c0", templateSourceId := 1 }
  | _ => { algorithm := Algorithm.RX_0, id := "", diff := 1000, height := 0, rawBlob := "" }

theorem freshEntropy_reorganised : FreshEntropy reorganised := by
  have hentropy : ∀ n, 2 < n → (reorganised n).templateEntropy = "" := by
    intro n hn
    match n with
    | 0 | 1 | 2 => omega
    | n + 3 => rfl
  have hsmall : ∀ n entropy, entropy.length = 16 →
      Hex.decode (reorganised n).templateEntropy.toList = some entropy → n ≤ 2 := by
    intro n entropy hlen hdecode
    by_contra hn
    rw [hentropy n (by omega)] at hdecode
    obtain rfl : [] = entropy := by simpa [Hex.decode] using hdecode
    cases hlen
  have hdistinct : ∀ n ≤ 2, ∀ n' ≤ 2, n ≠ n' →
      Hex.decode (reorganised n).templateEntropy.toList ≠
        Hex.decode (reorganised n').templateEntropy.toList := by decide +kernel
  intro n n' entropy hlen hn hn'
  by_contra hne
  exact hdistinct n (hsmall n entropy hlen hn) n' (hsmall n' entropy hlen hn') hne
    (hn.trans hn'.symm)

def verified : Miner.Config := { verifier := true }

def share : Json := .obj [("id", .str "m1"), ("job_id", .str "a"), ("nonce", .str "01000000"),
  ("result", .str "00000000000000000000000000000000000000000000000000000000000000ff")]

def shareKey : Key := List.replicate 15 0 ++ [0xa0] ++ List.replicate 31 0 ++ [0xff]

/-- The chain advances to height 11 and falls back while the first job is still retained. -/
def reorganisation : List Event := [.connect "m0", .connect "m1", .login 1, .setJob 1 0 (-1) {},
  .observeHeight 1 10, .submit 1 1 share, .setJob 1 1 (-1) {}, .observeHeight 1 11,
  .setJob 1 2 (-1) {}, .observeHeight 1 10, .submit 1 2 share]

theorem reorganisation_replays :
    ¬ ∀ (config : Miner.Config) (issued : ℕ → Job) (es : ℕ → Event) (i j : ℕ) (a b : Accepted),
      FreshEntropy issued → i < j → a ∈ (machine config issued).emitted es i →
      b ∈ (machine config issued).emitted es j → b.reservation.key = a.reservation.key →
      (∃ l, i < l ∧ l < j ∧ es l = .release a.reservation) ∨
        ∃ l, i < l ∧ l ≤ j ∧
          ¬ RetainsEntropy ((machine config issued).state es l) (a.reservation.key.take 16) := by
  intro h
  let es := follow reorganisation (.advance 0)
  rcases h verified reorganised es 5 10 ⟨1, shareKey, 1, 10, 1⟩ ⟨1, shareKey, 1, 10, 2⟩
    freshEntropy_reorganised (by decide) (by decide +kernel) (by decide +kernel) rfl with
    ⟨l, hl, hl', hrelease⟩ | ⟨l, hl, hl', hexpired⟩
  · interval_cases l <;> cases hrelease
  · have hretained : ∀ l ≤ 10, 5 < l →
        RetainsEntropy ((machine verified reorganised).state es l) (shareKey.take 16) := by
      decide +kernel
    exact hexpired (hretained l hl' hl)

/-- The verifier fails, the share is released and submitted once more. -/
def retriedShare : List Event := [.connect "m0", .connect "m1", .login 1, .setJob 1 0 (-1) {},
  .observeHeight 1 10, .submit 1 1 share, .release ⟨shareKey, 1, 10, 1⟩, .submit 1 2 share]

theorem no_double_acceptance_retried :
    (⟨1, shareKey, 1, 10, 2⟩ : Accepted) ∈
        (machine verified reorganised).emitted (follow retriedShare (.advance 0)) 7 ∧
      ((∃ l, 5 < l ∧ l < 7 ∧
          follow retriedShare (.advance 0) l = .release ⟨shareKey, 1, 10, 1⟩) ∨
        ∃ l, 5 < l ∧ l ≤ 7 ∧ ¬ RetainsEntropy
          ((machine verified reorganised).state (follow retriedShare (.advance 0)) l)
          (shareKey.take 16)) := by
  have hkept : ∀ l < 7, ∀ p ∈ registered reorganised
        ((machine verified reorganised).state (follow retriedShare (.advance 0)) l)
        (follow retriedShare (.advance 0) l),
      hasHeight ((machine verified reorganised).state
          (follow retriedShare (.advance 0)) l).cache p.1 p.2 = true ∨
        ∀ l' < l, hasHeight ((machine verified reorganised).state
          (follow retriedShare (.advance 0)) l').cache p.1 p.2 = false := by decide +kernel
  have hrevives : ∀ l < 7, ¬ Revives verified reorganised (follow retriedShare (.advance 0)) l := by
    rintro l hl ⟨sourceId, height, hreg, hmissing, ⟨l', hl', hhas⟩, -⟩
    rcases hkept l hl (sourceId, height) hreg with hpresent | hnever
    · simp [hmissing] at hpresent
    · simp [hnever l' hl'] at hhas
  exact ⟨by decide +kernel, no_double_acceptance freshEntropy_reorganised
    (follow retriedShare (.advance 0)) (by decide : 5 < 7) hrevives
    (a := ⟨1, shareKey, 1, 10, 1⟩) (b := ⟨1, shareKey, 1, 10, 2⟩)
    (by decide +kernel) (by decide +kernel) rfl⟩

end Scenario

end XmrigProxy.ShareReplay
