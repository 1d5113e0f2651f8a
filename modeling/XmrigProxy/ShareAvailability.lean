import XmrigProxy.ShareCacheInvariants
import XmrigProxy.ShareReplay

/-! Which jobs that a miner may still answer have a bucket for their shares. A miner
registers the heights that it needs under the key of its connection each time a daemon job
is written to it. The first connection has key zero, which the cache takes for no owner at
all, and a job without a template source moves the height of the miner without registering
anything; apart from these the registration covers what the checks let through. -/
namespace XmrigProxy.ShareAvailability

open GlobalShareCache (hasHeight)
open ShareCacheInvariants (Referenced referenced_step ownerCount)
open ShareReplay (System Accepted)

inductive Event where
  | share (event : ShareReplay.Event)
  | removeSource (sourceId : ℕ)

variable (config : Miner.Config) (issued : ℕ → Job)

def step (s : System) : Event → System × List Accepted
  | .share event => ShareReplay.step config issued s event
  | .removeSource sourceId =>
      ({ s with cache := GlobalShareCache.removeSource sourceId s.cache }, [])

def machine : Machine System Event Accepted where
  init := {}
  next := step config issued

/-- The newest daemon job that the miner retains. -/
def latestDaemonJob (m : Miner.State) : Option Miner.TelemetryJob :=
  m.telemetryJobs.find? fun job => job.templateSourceId ≠ 0

/-- A job that the checks of the miner let through, of the source it was last issued. -/
structure Eligible (now : ℕ) (m : Miner.State) (latest job : Miner.TelemetryJob) : Prop where
  newest : latestDaemonJob m = some latest
  retained : job ∈ m.telemetryJobs
  source : job.templateSourceId = latest.templateSourceId
  unexpired : Miner.unexpired now job = true
  fresh : Miner.isStale job.height m.jobHeight = false

/-- The source was not shut down in the first steps. -/
def LiveSource (es : ℕ → Event) (k sourceId : ℕ) : Prop := ∀ j < k, es j ≠ .removeSource sourceId

/-- What keeps the bucket of an eligible job: the miner's own registration, made at its
newest daemon job and not under key zero, the height of the source, or another owner. -/
def Covered (s : System) (key : ℕ) (latest job : Miner.TelemetryJob) : Prop :=
  (key ≠ 0 ∧ latest.height ≤ job.height) ∨
    job.height = GlobalShareCache.height s.cache job.templateSourceId ∨
    ∃ owner ≠ key, ∃ o, s.cache.owners.find owner = some o ∧
      o.sourceId = job.templateSourceId ∧ job.height ∈ o.heights

/-- What a miner registered at its newest daemon job. -/
structure Registration (live : ℕ → Prop) (s : System) (key : ℕ) (m : Miner.State)
    (latest : Miner.TelemetryJob) : Prop where
  above : ∀ o, s.cache.owners.find key = some o → o.sourceId = latest.templateSourceId →
    ∀ h ∈ o.heights, latest.height ≤ h
  covers : key ≠ 0 → live latest.templateSourceId → ∃ o, s.cache.owners.find key = some o ∧
    o.sourceId = latest.templateSourceId ∧ ∀ job ∈ m.telemetryJobs,
      job.templateSourceId = latest.templateSourceId → latest.height ≤ job.height →
      Miner.unexpired s.now job = true → job.height ∈ o.heights

structure Available (live : ℕ → Prop) (s : System) : Prop where
  referenced : Referenced s.cache
  unowned : s.cache.owners.find 0 = none
  keyed : ∀ key m, s.miners.find key = some m → m.key = key
  heights : ∀ key m, s.miners.find key = some m → ∀ job ∈ m.telemetryJobs,
    job.templateSourceId ≠ 0 → job.height ≠ 0
  registered : ∀ key m latest, s.miners.find key = some m → latestDaemonJob m = some latest →
    Registration live s key m latest

section Steps

variable {config} {issued} {live : ℕ → Prop} {s s' : System}

/-- Steps that touch neither owners nor the jobs of miners change nothing that matters. -/
theorem Available.congr (h : Available live s) (hr : Referenced s'.cache)
    (howners : s'.cache.owners = s.cache.owners) (hnow : s.now ≤ s'.now)
    (hminers : ∀ key m', s'.miners.find key = some m' → ∃ m, s.miners.find key = some m ∧
      m'.key = m.key ∧ m'.telemetryJobs = m.telemetryJobs) : Available live s' := by
  refine ⟨hr, howners ▸ h.unowned, fun key m' hm' => ?_, fun key m' hm' => ?_,
    fun key m' latest hm' hlatest => ?_⟩
  · obtain ⟨m, hm, hkey, -⟩ := hminers key m' hm'
    exact hkey.trans (h.keyed key m hm)
  · obtain ⟨m, hm, -, hjobs⟩ := hminers key m' hm'
    rw [hjobs]
    exact h.heights key m hm
  · obtain ⟨m, hm, -, hjobs⟩ := hminers key m' hm'
    have hlatest' : latestDaemonJob m = some latest := by rwa [latestDaemonJob, ← hjobs]
    have hr := h.registered key m latest hm hlatest'
    refine ⟨fun o ho => hr.above o (howners ▸ ho), fun hkey hlive => ?_⟩
    obtain ⟨o, ho, hsource, hcovers⟩ := hr.covers hkey hlive
    refine ⟨o, howners ▸ ho, hsource, fun job hjob hsrc hheight hexpiry => ?_⟩
    have hexpiry' : Miner.unexpired s.now job = true := by
      simp only [Miner.unexpired, decide_eq_true_eq] at hexpiry ⊢
      omega
    exact hcovers job (hjobs ▸ hjob) hsrc hheight hexpiry'

theorem latestDaemonJob_mem {m : Miner.State} {latest : Miner.TelemetryJob}
    (h : latestDaemonJob m = some latest) :
    latest ∈ m.telemetryJobs ∧ latest.templateSourceId ≠ 0 :=
  ⟨List.mem_of_find?_eq_some h, by simpa using List.find?_some h⟩

/-- The heights of one owner are replaced, those of the others stay. -/
theorem Registration.other {key' : ℕ} {m : Miner.State} {latest : Miner.TelemetryJob}
    (h : Registration live s key' m latest) (hnow : s'.now = s.now)
    (howners : s'.cache.owners.find key' = s.cache.owners.find key') :
    Registration live s' key' m latest :=
  ⟨howners.symm ▸ h.above, by rw [howners, hnow]; exact h.covers⟩

/-- A job without a template source is retained beside what was registered. -/
theorem Registration.sourceless {key : ℕ} {m m' : Miner.State}
    {latest telemetry : Miner.TelemetryJob} (h : Registration live s key m latest)
    (hlatest : latest.templateSourceId ≠ 0) (htelemetry : telemetry.templateSourceId = 0)
    (hjobs : ∀ job ∈ m'.telemetryJobs, job = telemetry ∨ job ∈ m.telemetryJobs)
    (hnow : s'.now = s.now) (howners : s'.cache.owners = s.cache.owners) :
    Registration live s' key m' latest := by
  refine ⟨howners ▸ h.above, fun hne hlive => ?_⟩
  obtain ⟨o, ho, hsource, hcovers⟩ := h.covers hne hlive
  refine ⟨o, howners ▸ ho, hsource, fun job hjob hsrc => ?_⟩
  rw [hnow]
  rcases hjobs job hjob with rfl | hmem
  · rw [htelemetry] at hsrc
    exact absurd hsrc.symm hlatest
  · exact hcovers job hmem hsrc

theorem mem_neededHeights {now : ℕ} {job : Job} {m : Miner.State} {h : ℕ}
    (hh : h ∈ ShareReplay.neededHeights now job m) : job.height ≤ h := by
  rw [ShareReplay.neededHeights] at hh
  rcases List.mem_cons.mp hh with rfl | hmem
  · exact le_rfl
  · obtain ⟨retained, hretained, rfl⟩ := List.mem_map.mp hmem
    have := (List.mem_filter.mp hretained).2
    simp only [Bool.and_eq_true, decide_eq_true_eq] at this
    exact this.1.2

/-- A daemon job registers the heights of all retained jobs that it does not make stale. -/
theorem registration_daemon {key : ℕ} {m m' : Miner.State} {telemetry : Miner.TelemetryJob}
    {job : Job} (hsource : telemetry.templateSourceId = job.templateSourceId)
    (hheight : telemetry.height = job.height) (hne : job.height ≠ 0)
    (hjobs : m'.telemetryJobs =
      telemetry :: m.telemetryJobs.take (Miner.telemetryJobCount - 1))
    (hzero : key = 0 → s'.cache.owners.find key = none)
    (howners : key ≠ 0 → s'.cache.owners.find key = some ⟨job.templateSourceId,
      ((ShareReplay.neededHeights s'.now job m).filter (· ≠ 0)).dedup⟩) :
    Registration live s' key m' telemetry := by
  refine ⟨fun o ho _ h hh => ?_, fun hkey _ => ⟨_, howners hkey, hsource.symm, ?_⟩⟩
  · by_cases hkey : key = 0
    · rw [hzero hkey] at ho
      cases ho
    · rw [howners hkey] at ho
      obtain rfl := Option.some.inj ho
      rw [hheight]
      exact mem_neededHeights (List.mem_of_mem_filter (List.mem_dedup.mp hh))
  · intro retained hretained hsrc hle hexpiry
    rw [hheight] at hle
    rw [List.mem_dedup, List.mem_filter]
    refine ⟨?_, by simp; omega⟩
    rw [hjobs] at hretained
    rcases List.mem_cons.mp hretained with rfl | hmem
    · rw [hheight]
      exact List.mem_cons_self
    · refine List.mem_cons_of_mem _ (List.mem_map_of_mem (List.mem_filter.mpr ⟨hmem, ?_⟩))
      simp [hsrc, hsource, hle, hexpiry]

theorem Available.deliver {key : ℕ} {m m₁ : Miner.State} {written : Bool} {job : Job}
    {blob : String} (h : Available live s) (hm : s.miners.find key = some m)
    (hkey : m₁.key = m.key) (hjobs : m₁.telemetryJobs = m.telemetryJobs)
    (hheights : job.templateSourceId ≠ 0 → job.height ≠ 0) :
    let r := Miner.deliver s.now written job blob m₁ s.cache
    Available live { s with miners := s.miners.insert key r.1, cache := r.2 } := by
  intro r
  cases written with
  | false =>
      refine h.congr h.referenced rfl le_rfl fun key' m' hm' => ?_
      rw [Table.find_insert] at hm'
      split at hm'
      · next heq =>
        subst heq
        obtain rfl := Option.some.inj hm'
        exact ⟨m, hm, by simp [r, hkey], by simp [r, Miner.deliver, hjobs]⟩
      · exact ⟨m', hm', rfl, rfl⟩
  | true =>
      obtain ⟨telemetry, hheight, hsource, htelemetry⟩ :=
        @ShareReplay.jobs_deliver s.now job blob m₁ s.cache
      have hcache := @ShareReplay.cache_deliver s.now job blob m₁ s.cache
      have hmkey : m₁.key = key := hkey.trans (h.keyed key m hm)
      have hold : ∀ job' ∈ m₁.telemetryJobs.take (Miner.telemetryJobCount - 1),
          job' ∈ m.telemetryJobs := fun job' hjob' => hjobs ▸ List.mem_of_mem_take hjob'
      have howners : ∀ key', key' ≠ key → r.2.owners.find key' = s.cache.owners.find key' := by
        intro key' hne
        rw [show r.2 = _ from hcache]
        split
        · rw [ShareCacheInvariants.find_setOwnerHeights, hmkey, if_pos (Or.inr hne)]
        · rfl
      refine ⟨?_, ?_, fun key' m' hm' => ?_, fun key' m' hm' job' hjob' => ?_,
        fun key' m' latest hm' hlatest => ?_⟩
      · rw [show r.2 = _ from hcache]
        split
        · exact ShareCacheInvariants.referenced_setOwnerHeights _ _ _ h.referenced
        · exact h.referenced
      · rw [show r.2 = _ from hcache]
        split
        · rw [ShareCacheInvariants.find_setOwnerHeights]
          by_cases hzero : m₁.key = 0
          · rw [if_pos (Or.inl hzero)]
            exact h.unowned
          · rw [if_pos (Or.inr (Ne.symm hzero))]
            exact h.unowned
        · exact h.unowned
      · rw [Table.find_insert] at hm'
        split at hm'
        · next heq =>
          obtain rfl := Option.some.inj hm'
          rw [heq, ← hmkey]
          exact Miner.deliver_key _ _ _ _ _ _
        · exact h.keyed key' m' hm'
      · rw [Table.find_insert] at hm'
        split at hm'
        · obtain rfl := Option.some.inj hm'
          rw [show r.1.telemetryJobs = _ from htelemetry] at hjob'
          rcases List.mem_cons.mp hjob' with rfl | hmem
          · rw [hsource, hheight]
            exact hheights
          · exact h.heights key m hm job' (hold job' hmem)
        · exact h.heights key' m' hm' job' hjob'
      · rw [Table.find_insert] at hm'
        split at hm'
        · next heq =>
          subst heq
          obtain rfl := Option.some.inj hm'
          rw [latestDaemonJob, show r.1.telemetryJobs = _ from htelemetry] at hlatest
          by_cases hdaemon : job.templateSourceId = 0
          · rw [if_neg fun hc => hc.1 hdaemon] at hcache
            rw [List.find?_cons_of_neg (by simp [hsource, hdaemon]), hjobs] at hlatest
            have hbefore : latestDaemonJob m = some latest :=
              (List.take_prefix _ _).find?_eq_some hlatest
            refine (h.registered _ m latest hm hbefore).sourceless (latestDaemonJob_mem hbefore).2
              (hsource.trans hdaemon) (fun job' hjob' => ?_) rfl (congrArg _ hcache)
            rw [show r.1.telemetryJobs = _ from htelemetry] at hjob'
            exact (List.mem_cons.mp hjob').imp_right (hold job')
          · rw [if_pos ⟨hdaemon, hheights hdaemon⟩, hmkey] at hcache
            rw [List.find?_cons_of_pos (by simpa [hsource] using hdaemon)] at hlatest
            obtain rfl := Option.some.inj hlatest
            refine registration_daemon hsource hheight (hheights hdaemon) htelemetry
              (fun hzero => ?_) fun hne => ?_
            · change r.2.owners.find _ = none
              rw [show r.2 = _ from hcache, ShareCacheInvariants.find_setOwnerHeights,
                if_pos (Or.inl hzero), hzero]
              exact h.unowned
            · change r.2.owners.find _ = _
              have hmem : job.height ∈
                  ((ShareReplay.neededHeights s.now job m₁).filter (· ≠ 0)).dedup := by
                rw [List.mem_dedup, List.mem_filter]
                exact ⟨List.mem_cons_self, by simpa using hheights hdaemon⟩
              rw [show r.2 = _ from hcache, ShareCacheInvariants.find_setOwnerHeights,
                if_neg (by simp [hne]), if_neg]
              rintro (hsrc | hempty)
              · exact hdaemon hsrc
              · rw [hempty] at hmem
                cases hmem
        · next hne =>
          exact (h.registered key' m' latest hm' hlatest).other rfl (howners key' hne)

/-- Changes of one miner that keep its key and its jobs. -/
theorem Available.update {key : ℕ} {f : Miner.State → Miner.Cache → Miner.State × Miner.Cache}
    (h : Available live s) (hf : ∀ m, (f m s.cache).1.key = m.key ∧
      (f m s.cache).1.telemetryJobs = m.telemetryJobs ∧ (f m s.cache).2 = s.cache) :
    Available live (ShareReplay.update key f s) := by
  unfold ShareReplay.update
  split
  · exact h
  · next m hm =>
    obtain ⟨hkey, hjobs, hcache⟩ := hf m
    have hr : Referenced (f m s.cache).2 := by
      rw [hcache]
      exact h.referenced
    refine h.congr hr (congrArg _ hcache) le_rfl fun key' m' hm' => ?_
    rw [Table.find_insert] at hm'
    split at hm'
    · next heq =>
      obtain rfl := Option.some.inj hm'
      exact ⟨m, heq ▸ hm, hkey, hjobs⟩
    · exact ⟨m', hm', rfl, rfl⟩

theorem Available.updateDeliver {key : ℕ} {written : Bool} {job : Job}
    {blob : Miner.State → String} {prepare : Miner.State → Miner.State} (h : Available live s)
    (hprepare : ∀ m, (prepare m).key = m.key ∧ (prepare m).telemetryJobs = m.telemetryJobs)
    (hheights : job.templateSourceId ≠ 0 → job.height ≠ 0) :
    Available live (ShareReplay.update key
      (fun m => Miner.deliver s.now written job (blob m) (prepare m)) s) := by
  unfold ShareReplay.update
  split
  · exact h
  · next m hm => exact h.deliver hm (hprepare m).1 (hprepare m).2 hheights

/-- An owner is removed together with the jobs of its miner. -/
theorem Available.removeOwner {key : ℕ} (h : Available live s)
    (hcache : s'.cache = GlobalShareCache.removeOwner key s.cache) (hnow : s'.now = s.now)
    (hminers : ∀ key' m', s'.miners.find key' = some m' →
      (key' ≠ key ∧ s.miners.find key' = some m') ∨
        (key' = key ∧ m'.key = key ∧ m'.telemetryJobs = [])) : Available live s' := by
  refine ⟨hcache ▸ ShareCacheInvariants.referenced_removeOwner key h.referenced, ?_,
    fun key' m' hm' => ?_, fun key' m' hm' job hjob => ?_, fun key' m' latest hm' hlatest => ?_⟩
  · rw [hcache, ShareCacheInvariants.find_removeOwner, h.unowned, ite_self]
  · rcases hminers key' m' hm' with ⟨-, hm⟩ | ⟨rfl, hkey, -⟩
    · exact h.keyed key' m' hm
    · exact hkey
  · rcases hminers key' m' hm' with ⟨-, hm⟩ | ⟨-, -, hnone⟩
    · exact h.heights key' m' hm job hjob
    · rw [hnone] at hjob
      cases hjob
  · rcases hminers key' m' hm' with ⟨hne, hm⟩ | ⟨-, -, hnone⟩
    · apply (h.registered key' m' latest hm hlatest).other hnow
      rw [hcache, ShareCacheInvariants.find_removeOwner, if_neg fun hc => hne hc.2]
    · rw [latestDaemonJob, hnone] at hlatest
      cases hlatest

theorem examine_keeps (id : ℤ) (params : Json) (m : Miner.State) (s : System) :
    (ShareReplay.examine config id params m s).2.2.1.key = m.key ∧
      (ShareReplay.examine config id params m s).2.2.1.telemetryJobs = m.telemetryJobs := by
  let named := (params.text "job_id").bind fun jobId => Miner.findTelemetryJob s.now jobId m
  let request := Miner.submitRequest config id (s.shareSequence + 1) params named m
  change (Miner.checkSubmission config s.now params request named m s.cache).2.2.1.key = _ ∧
    (Miner.checkSubmission config s.now params request named m s.cache).2.2.1.telemetryJobs = _
  rcases @Miner.checkSubmission_cases config s.now params request named m s.cache with
    ⟨-, hrest⟩ | ⟨job, -, -, -, -, -, -, hrest⟩
  · rw [hrest]
    exact ⟨rfl, rfl⟩
  · obtain ⟨⟨seen, times, sequence, hm⟩, -, -⟩ := Miner.rememberSubmission_cases s.now job
      request.jobId request.nonce request.result m s.cache
    rw [hrest, hm]
    exact ⟨rfl, rfl⟩

theorem available_share (hheights : ∀ n, (issued n).templateSourceId ≠ 0 → (issued n).height ≠ 0)
    (h : Available live s) (e : ShareReplay.Event) :
    Available live (ShareReplay.step config issued s e).1 := by
  cases e with
  | advance elapsed =>
      exact h.congr h.referenced rfl (Nat.le_add_right _ _) fun _ m hm => ⟨m, hm, rfl, rfl⟩
  | connect rpcId =>
      refine ⟨h.referenced, h.unowned, fun key' m' hm' => ?_, fun key' m' hm' job hjob => ?_,
        fun key' m' latest hm' hlatest => ?_⟩
      all_goals
        rw [ShareReplay.step, Table.find_insert] at hm'
        split at hm'
      · next heq =>
        obtain rfl := Option.some.inj hm'
        exact heq.symm
      · exact h.keyed key' m' hm'
      · obtain rfl := Option.some.inj hm'
        cases hjob
      · exact h.heights key' m' hm' job hjob
      · obtain rfl := Option.some.inj hm'
        cases hlatest
      · exact (h.registered key' m' latest hm' hlatest).other rfl rfl
  | login key =>
      refine h.update fun m => ?_
      split <;> exact ⟨rfl, rfl, rfl⟩
  | assign key mapperId nicehash customDiff fixedByte => exact h.update fun m => ⟨rfl, rfl, rfl⟩
  | setJob key job extraNonce issue => exact h.updateDeliver (fun m => ⟨rfl, rfl⟩) (hheights job)
  | forwardJob key job issue => exact h.updateDeliver (fun m => ⟨rfl, rfl⟩) (hheights job)
  | clearTelemetryJobs key =>
      rw [ShareReplay.step, ShareReplay.update]
      split
      · exact h
      · next m hm =>
        have hkey := h.keyed key m hm
        refine @Available.removeOwner live s _ key h
          (congrArg (GlobalShareCache.removeOwner · _) hkey) rfl
          fun key' m' hm' => ?_
        rw [Table.find_insert] at hm'
        split at hm'
        · next heq =>
          obtain rfl := Option.some.inj hm'
          exact Or.inr ⟨heq, hkey, rfl⟩
        · next hne => exact Or.inl ⟨hne, hm'⟩
  | close key => exact h.update fun m => ⟨rfl, rfl, rfl⟩
  | destroy key =>
      refine h.removeOwner rfl rfl fun key' m' hm' => ?_
      rw [ShareReplay.step, Table.find_erase] at hm'
      split at hm'
      · cases hm'
      · next hne => exact Or.inl ⟨hne, hm'⟩
  | observeHeight sourceId height =>
      exact h.congr (ShareCacheInvariants.referenced_observeHeight _ _ h.referenced)
        (ShareCacheInvariants.owners_observeHeight _ _ _) le_rfl fun _ m hm => ⟨m, hm, rfl, rfl⟩
  | submit key id params =>
      have hcache : Referenced (ShareReplay.submit config key id params s).1.cache ∧
          (ShareReplay.submit config key id params s).1.cache.owners = s.cache.owners := by
        rcases @ShareReplay.submit_cases config key id params s with
          ⟨heq, -⟩ | ⟨-, job, -, share, -, -, -, -, heq, -⟩
        · rw [heq]
          exact ⟨h.referenced, rfl⟩
        · rw [heq]
          exact ⟨ShareCacheInvariants.referenced_reserve _ _ share h.referenced,
            (ShareCacheInvariants.owners_reserve _ _ share s.cache).1⟩
      refine h.congr hcache.1 hcache.2 ?_ fun key' m' hm' => ?_
      · rw [ShareReplay.step, ShareReplay.submit]
        split
        · exact le_rfl
        · split <;> exact le_rfl
      · rw [ShareReplay.step, ShareReplay.submit] at hm'
        split at hm'
        · exact ⟨m', hm', rfl, rfl⟩
        · next m hm =>
          split at hm'
          · exact ⟨m', hm', rfl, rfl⟩
          · rw [Table.find_insert] at hm'
            split at hm'
            · next heq =>
              obtain rfl := Option.some.inj hm'
              obtain ⟨hkey, hjobs⟩ := @examine_keeps config id params m s
              exact ⟨m, heq ▸ hm, hkey, hjobs⟩
            · exact ⟨m', hm', rfl, rfl⟩
  | release r =>
      exact h.congr (ShareCacheInvariants.referenced_release r h.referenced)
        (ShareCacheInvariants.owners_release r s.cache).1 le_rfl fun _ m hm => ⟨m, hm, rfl, rfl⟩
  | reserveComputed sourceId height key =>
      exact h.congr (ShareCacheInvariants.referenced_reserve _ _ key h.referenced)
        (ShareCacheInvariants.owners_reserve _ _ key s.cache).1 le_rfl
        fun _ m hm => ⟨m, hm, rfl, rfl⟩

theorem available_removeSource (sourceId : ℕ) (h : Available live s) :
    Available (fun src => live src ∧ src ≠ sourceId)
      { s with cache := GlobalShareCache.removeSource sourceId s.cache } := by
  have hfind := fun key => ShareCacheInvariants.find_removeSource sourceId key s.cache
  refine ⟨ShareCacheInvariants.referenced_removeSource sourceId h.referenced, ?_,
    h.keyed, h.heights, fun key m latest hm hlatest => ?_⟩
  · cases hzero : (GlobalShareCache.removeSource sourceId s.cache).owners.find 0 with
    | none => rfl
    | some o =>
        have := (hfind 0 o).1 hzero
        rw [h.unowned] at this
        cases this
  · have hreg := h.registered key m latest hm hlatest
    refine ⟨fun o ho => hreg.above o ((hfind key o).1 ho), fun hne hlive => ?_⟩
    obtain ⟨o, ho, hsource, hcovers⟩ := hreg.covers hne hlive.1
    exact ⟨o, (hfind key o).2 (hsource ▸ hlive.2) ho, hsource, hcovers⟩

end Steps

section Runs

variable {config} {issued}

theorem available_initial (live : ℕ → Prop) : Available live {} := by
  refine ⟨ShareCacheInvariants.referenced_initial, ?_, ?_, ?_, ?_⟩ <;> simp

theorem Available.mono {live live' : ℕ → Prop} {s : System} (h : Available live s)
    (hlive : ∀ src, live' src → live src) : Available live' s :=
  ⟨h.referenced, h.unowned, h.keyed, h.heights, fun key m latest hm hlatest =>
    ⟨(h.registered key m latest hm hlatest).above, fun hne hsrc =>
      (h.registered key m latest hm hlatest).covers hne (hlive _ hsrc)⟩⟩

theorem reachable_available
    (hheights : ∀ n, (issued n).templateSourceId ≠ 0 → (issued n).height ≠ 0)
    (es : ℕ → Event) (k : ℕ) :
    Available (LiveSource es k) ((machine config issued).state es k) := by
  induction k with
  | zero => exact available_initial _
  | succ k ih =>
      have hlive : ∀ src, LiveSource es (k + 1) src → LiveSource es k src ∧
          es k ≠ .removeSource src :=
        fun src h => ⟨fun j hj => h j (by omega), h k (by omega)⟩
      rw [Machine.state_succ]
      cases he : es k with
      | share e =>
          exact (available_share hheights ih e).mono fun src h => (hlive src h).1
      | removeSource sourceId =>
          refine (available_removeSource sourceId ih).mono fun src h => ⟨(hlive src h).1, ?_⟩
          rintro rfl
          exact (hlive _ h).2 he

theorem ownerCount_pos (cache : GlobalShareCache.State) (src h : ℕ) :
    0 < ownerCount cache src h ↔ ∃ owner o, cache.owners.find owner = some o ∧
      o.sourceId = src ∧ h ∈ o.heights := by
  rw [Nat.pos_iff_ne_zero, ownerCount, Ne, Table.count_eq_zero]
  simp only [not_forall, Bool.and_eq_false_iff, decide_eq_false_iff_not, not_or, not_not,
    Bool.not_eq_false, List.contains_iff_mem, exists_prop]

/-- A job that the checks let through has its bucket exactly when something covers it. -/
theorem share_availability
    (hheights : ∀ n, (issued n).templateSourceId ≠ 0 → (issued n).height ≠ 0)
    (es : ℕ → Event) (k key : ℕ) (m : Miner.State) (latest job : Miner.TelemetryJob)
    (hm : ((machine config issued).state es k).miners.find key = some m)
    (heligible : Eligible ((machine config issued).state es k).now m latest job)
    (hlive : LiveSource es k job.templateSourceId) :
    let s := (machine config issued).state es k
    (hasHeight s.cache job.templateSourceId job.height = true ↔ Covered s key latest job) ∧
      ∀ share : GlobalShareCache.Key, share.length = GlobalShareCache.keySize →
        ((GlobalShareCache.reserve job.templateSourceId job.height share s.cache).1 ≠ .invalid ↔
          Covered s key latest job) := by
  intro s
  have h : Available (LiveSource es k) ((machine config issued).state es k) :=
    reachable_available hheights es k
  have hreg := h.registered key m latest hm heligible.newest
  have hsource : job.templateSourceId ≠ 0 := by
    rw [heligible.source]
    exact (latestDaemonJob_mem heligible.newest).2
  have hheight := h.heights key m hm job heligible.retained hsource
  have hbucket : hasHeight s.cache job.templateSourceId job.height = true ↔
      Covered s key latest job := by
    rw [h.referenced.hasHeight_iff, ownerCount_pos]
    constructor
    · rintro (⟨-, hcurrent⟩ | ⟨owner, o, ho, hosource, hmem⟩)
      · exact Or.inr (Or.inl hcurrent)
      · by_cases howner : owner = key
        · subst howner
          refine Or.inl ⟨?_, hreg.above o ho (hosource.trans heligible.source) _ hmem⟩
          rintro rfl
          have := h.unowned
          rw [ho] at this
          cases this
        · exact Or.inr (Or.inr ⟨owner, howner, o, ho, hosource, hmem⟩)
    · rintro (⟨hkey, hle⟩ | hcurrent | ⟨owner, -, hlisted⟩)
      · obtain ⟨o, ho, hosource, hcovers⟩ := hreg.covers hkey (heligible.source ▸ hlive)
        exact Or.inr ⟨key, o, ho, hosource.trans heligible.source.symm,
          hcovers job heligible.retained heligible.source hle heligible.unexpired⟩
      · exact Or.inl ⟨hheight, hcurrent⟩
      · exact Or.inr ⟨owner, hlisted⟩
  refine ⟨hbucket, fun share hshare => ?_⟩
  rw [Ne, ShareCacheInvariants.reserve_invalid_iff, ← hbucket]
  simp [hsource, hheight, hshare]

end Runs

section Scenario

/-- Two daemon jobs of one source, the second one block below the first. -/
def reorganised (n : ℕ) : Job :=
  { algorithm := Algorithm.RX_0, id := if n = 0 then "first" else "second", diff := 1000,
    height := if n = 0 then 101 else 100, rawBlob := "00", templateSourceId := 1 }

/-- The connection with the key is issued both jobs, each before its height is observed. -/
def issuedTo (key : ℕ) : ℕ → Event :=
  follow [.share (.connect "a"), .share (.connect "b"), .share (.setJob key 0 (-1) {}),
    .share (.observeHeight 1 101), .share (.setJob key 1 (-1) {}),
    .share (.observeHeight 1 100)] (.share (.advance 0))

def retainedOf (n token : ℕ) : Miner.TelemetryJob :=
  Miner.telemetryOf 0 (reorganised n) "00" 1000
    { key := 0, rpcId := "", jobIssuanceSequence := token }

theorem reorganised_heights (n : ℕ) : (reorganised n).height ≠ 0 := by
  unfold reorganised
  dsimp only
  split <;> decide

theorem liveSource_issuedTo (key : ℕ) : LiveSource (issuedTo key) 6 1 := by
  intro j hj
  interval_cases j <;> simp [issuedTo, follow]

theorem first_connection_unavailable :
    let s := (machine {} reorganised).state (issuedTo 0) 6
    ∃ m, s.miners.find 0 = some m ∧ Eligible s.now m (retainedOf 1 1) (retainedOf 0 0) ∧
      LiveSource (issuedTo 0) 6 1 ∧ hasHeight s.cache 1 101 = false ∧
      (GlobalShareCache.reserve 1 101 (List.replicate 48 7) s.cache).1 = .invalid := by
  refine ⟨((((machine {} reorganised).state (issuedTo 0) 6).miners.find 0).get (by decide)),
    by simp, ⟨by decide, by decide, by decide, by decide, by decide⟩, liveSource_issuedTo 0,
    by decide, by decide⟩

theorem share_availability_second :
    hasHeight ((machine {} reorganised).state (issuedTo 1) 6).cache 1 101 = true :=
  (share_availability (fun n _ => reorganised_heights n) (issuedTo 1) 6 1
    ((((machine {} reorganised).state (issuedTo 1) 6).miners.find 1).get (by decide))
    (retainedOf 1 1) (retainedOf 0 0) (by simp)
    ⟨by decide, by decide, by decide, by decide, by decide⟩ (liveSource_issuedTo 1)).1.mpr
    (Or.inl ⟨by decide, by decide⟩)

end Scenario

end XmrigProxy.ShareAvailability
