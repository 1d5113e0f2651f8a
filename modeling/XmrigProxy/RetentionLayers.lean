import XmrigProxy.JobRetention

/-! The miner honours a job for at least as long as the mapper and the daemon client do, and
longer than the client in two cases: when an open connection has refused newer jobs, and in the
moments by which the miner dated the job later than the client did. -/
namespace XmrigProxy.JobRetention

section History

structure Derived where
  id : String
  created : ℕ
  deriving DecidableEq

def observe (jobs : List Derived) : Output → List Derived
  | .recorded id created => ⟨id, created⟩ :: jobs
  | .cleared => []
  | .refused => jobs

/-- The jobs that the mapper was given since it last gave up its jobs, newest first. -/
def records (tr : List Output) : List Derived := tr.foldl observe []

theorem records_append (tr out : List Output) :
    records (tr ++ out) = out.foldl observe (records tr) := List.foldl_append

/-- The job is the newest one. Or there are at most five newer ones, and the daemon client reads
its clock before the job is 120 seconds old. -/
def Kept (jobs : List Derived) (jobId : String) (now : ℕ) : Prop :=
  jobs.head?.map Derived.id = some jobId ∨
    ∃ d, (jobs.take DaemonClient.kJobHistorySize).find? (fun d => d.id = jobId) = some d ∧
      now < d.created + DaemonClient.kJobHistoryMs

end History

section Clients

def derived (context : DaemonClient.JobContext) : Derived :=
  ⟨context.jobId, context.createdSteadyMs⟩

def freshAt (now : ℕ) (d : Derived) : Bool := now < d.created + DaemonClient.kJobHistoryMs

theorem freshAt_anti {now now' : ℕ} (h : now ≤ now') (d : Derived)
    (hfresh : freshAt now' d = true) : freshAt now d = true := by
  simp only [freshAt, decide_eq_true_eq] at hfresh ⊢
  omega

/-- Newest first, with nothing dated after `clock`. -/
structure Dated (clock : ℕ) (jobs : List Derived) : Prop where
  sorted : jobs.Pairwise fun a b => b.created ≤ a.created
  past : ∀ d ∈ jobs, d.created ≤ clock

theorem Dated.fresh {clock now : ℕ} {jobs : List Derived} (h : Dated clock jobs) :
    jobs.Pairwise fun a b => freshAt now b = true → freshAt now a = true := by
  refine h.sorted.imp fun hab hb => ?_
  simp only [freshAt, decide_eq_true_eq] at hb ⊢
  omega

/-- The client has the recent ones of these jobs, as of some earlier time, and maybe of jobs
before them. -/
def ClientHolds (clock : ℕ) (jobs : List Derived) (contexts : List DaemonClient.JobContext) :
    Prop :=
  ∃ older trimmed, contexts.map derived = Retention.recent 5 (freshAt trimmed) (jobs ++ older) ∧
    Dated clock (jobs ++ older) ∧ trimmed ≤ clock

variable {clock now : ℕ} {jobs jobs' : List Derived} {contexts : List DaemonClient.JobContext}

theorem ClientHolds.mono (h : ClientHolds clock jobs contexts) (hle : clock ≤ now) :
    ClientHolds now jobs contexts := by
  obtain ⟨older, trimmed, hcontexts, hdated, htrimmed⟩ := h
  refine ⟨older, trimmed, hcontexts, ⟨hdated.sorted, fun d hd => ?_⟩, htrimmed.trans hle⟩
  exact (hdated.past d hd).trans hle

theorem ClientHolds.forget (h : ClientHolds clock (jobs ++ jobs') contexts) :
    ClientHolds clock jobs contexts := by
  obtain ⟨older, trimmed, hcontexts, hdated, htrimmed⟩ := h
  rw [List.append_assoc] at hcontexts hdated
  exact ⟨jobs' ++ older, trimmed, hcontexts, hdated, htrimmed⟩

theorem ClientHolds.sorted (h : ClientHolds clock jobs contexts) :
    contexts.Pairwise fun a b => b.createdSteadyMs ≤ a.createdSteadyMs := by
  obtain ⟨older, trimmed, hcontexts, hdated, -⟩ := h
  have hmap : (contexts.map derived).Pairwise fun a b => b.created ≤ a.created := by
    rw [hcontexts]
    exact hdated.sorted.sublist (Retention.recent_sublist _ _ _)
  exact (List.pairwise_map.mp hmap).imp fun hab => hab

theorem map_trimContexts (now : ℕ)
    (h : contexts.Pairwise fun a b => b.createdSteadyMs ≤ a.createdSteadyMs) :
    (DaemonClient.trimContexts now contexts).map derived =
      Retention.recent 5 (freshAt now) (contexts.map derived) := by
  rw [DaemonClient.trimContexts_eq_recent now h, ← Retention.map_recent derived contexts]
  rfl

theorem ClientHolds.trim (h : ClientHolds clock jobs contexts) (hle : clock ≤ now) :
    ClientHolds now jobs (DaemonClient.trimContexts now contexts) := by
  have hsorted := h.sorted
  obtain ⟨older, trimmed, hcontexts, hdated, htrimmed⟩ := h
  refine ⟨older, now, ?_, ⟨hdated.sorted, fun d hd => (hdated.past d hd).trans hle⟩, le_rfl⟩
  rw [map_trimContexts now hsorted, hcontexts,
    Retention.recent_recent (freshAt_anti (htrimmed.trans hle))]

/-- A new context is in front of those that are recent by now. -/
theorem ClientHolds.install (h : ClientHolds clock jobs contexts)
    {context : DaemonClient.JobContext} (hcreated : clock ≤ context.createdSteadyMs)
    (hnow : context.createdSteadyMs ≤ now) :
    ClientHolds now (derived context :: jobs)
      (DaemonClient.trimContexts now (context :: contexts)) := by
  have hsorted := h.sorted
  obtain ⟨older, trimmed, hcontexts, hdated, htrimmed⟩ := h
  have hpast : ∀ c ∈ contexts, c.createdSteadyMs ≤ context.createdSteadyMs := by
    intro c hc
    have hmem : derived c ∈ jobs ++ older := by
      have hrecent : derived c ∈ Retention.recent 5 (freshAt trimmed) (jobs ++ older) :=
        hcontexts ▸ List.mem_map_of_mem hc
      exact (Retention.recent_sublist _ _ _).subset hrecent
    exact (hdated.past _ hmem).trans hcreated
  refine ⟨older, now, ?_, ⟨List.pairwise_cons.mpr ⟨fun d hd => ?_, hdated.sorted⟩, ?_⟩, le_rfl⟩
  · rw [map_trimContexts now (List.pairwise_cons.mpr ⟨hpast, hsorted⟩), List.map_cons, hcontexts,
      Retention.recent_cons_recent (freshAt_anti (by omega))]
    rfl
  · exact (hdated.past d hd).trans hcreated
  · intro d hd
    rcases List.mem_cons.mp hd with rfl | hd
    · exact hnow
    · have := hdated.past d hd
      omega

theorem clientHolds_first {context : DaemonClient.JobContext}
    (hnow : context.createdSteadyMs ≤ now) :
    ClientHolds now [derived context] (DaemonClient.trimContexts now [context]) := by
  refine ⟨[], now, rfl, ⟨List.pairwise_singleton _ _, fun d hd => ?_⟩, le_rfl⟩
  rw [List.append_nil] at hd
  rw [List.mem_singleton.mp hd]
  exact hnow

end Clients

section Mappers

/-- The mapper's record of a job, dated no earlier than the client's. -/
structure Recorded (strategy : ℕ) (entry : SimpleMapper.JobEntry) (d : Derived) : Prop where
  id : entry.job.id = d.id
  strategy : entry.strategy = some strategy
  issuedAt : d.created ≤ entry.issuedAt

/-- The mapper has the six newest jobs. -/
structure MapperHolds (jobs : List Derived) (m : SimpleMapper.State) : Prop where
  blank : jobs = [] → m.currentJob = {} ∧ m.jobHistory = []
  entries : jobs ≠ [] → List.Forall₂ (Recorded m.strategy)
    (m.currentJob :: m.jobHistory) (jobs.take 6)
  valid : ∀ entry ∈ m.jobHistory, entry.job.isValid = true

variable {m : SimpleMapper.State} {jobs : List Derived} {job : Job} {created recordedAt number : ℕ}

theorem MapperHolds.congr (h : MapperHolds jobs m) {m' : SimpleMapper.State}
    (hcurrent : m'.currentJob = m.currentJob) (hhistory : m'.jobHistory = m.jobHistory)
    (hstrategy : m'.strategy = m.strategy) : MapperHolds jobs m' := by
  constructor
  case blank =>
    intro hjobs
    rw [hcurrent, hhistory]
    exact h.blank hjobs
  case entries =>
    intro hjobs
    rw [hcurrent, hhistory, hstrategy]
    exact h.entries hjobs
  case valid =>
    rw [hhistory]
    exact h.valid

/-- A job continues the list of the jobs before it, or starts a new one. -/
theorem MapperHolds.setJob (h : MapperHolds jobs m) (hnumber : m.strategy = number)
    (hcreated : created ≤ recordedAt) :
    MapperHolds (⟨job.id, created⟩ :: if SimpleMapper.continues job number m then jobs else [])
      (SimpleMapper.setJob recordedAt job number m).1 := by
  have hnew : Recorded m.strategy ⟨job, some number, recordedAt⟩ ⟨job.id, created⟩ :=
    ⟨rfl, congrArg some hnumber.symm, hcreated⟩
  unfold SimpleMapper.setJob
  dsimp only
  by_cases hcontinues : SimpleMapper.continues job number m = true
  · rw [if_pos hcontinues, if_pos hcontinues]
    have hvalid : m.currentJob.job.isValid = true := by
      simp only [SimpleMapper.continues, Bool.and_eq_true] at hcontinues
      exact hcontinues.1.1
    have hjobs : jobs ≠ [] := by
      intro hnil
      rw [(h.blank hnil).1] at hvalid
      exact absurd hvalid (by decide)
    constructor
    case blank => exact fun hnil => by cases hnil
    case entries =>
      intro _
      have hold := List.forall₂_take 5 (h.entries hjobs)
      rw [List.take_take, min_eq_left (by omega)] at hold
      exact List.Forall₂.cons hnew hold
    case valid =>
      intro entry hentry
      rcases List.mem_cons.mp (List.mem_of_mem_take hentry) with rfl | hentry
      · exact hvalid
      · exact h.valid entry hentry
  · rw [if_neg hcontinues, if_neg hcontinues]
    constructor
    case blank => exact fun hnil => by cases hnil
    case entries => exact fun _ => List.Forall₂.cons hnew List.Forall₂.nil
    case valid => exact fun entry hentry => by cases hentry

theorem mapperHolds_initial (id : ℕ) (miner : MinerId) :
    MapperHolds [] (SimpleMapper.add miner { id }).1 :=
  ⟨fun _ => ⟨rfl, rfl⟩, fun hne => absurd rfl hne, fun entry hentry => by cases hentry⟩

theorem exists_of_forall₂ {α β : Type*} {R : α → β → Prop} {l : List α} {l' : List β}
    (h : List.Forall₂ R l l') {a : α} (ha : a ∈ l) : ∃ b ∈ l', R a b := by
  induction h with
  | nil => cases ha
  | cons hab _ ih =>
      rcases List.mem_cons.mp ha with rfl | ha
      · exact ⟨_, List.mem_cons_self, hab⟩
      · obtain ⟨b, hb, hR⟩ := ih ha
        exact ⟨b, List.mem_cons_of_mem _ hb, hR⟩

variable {first : Derived} {rest : List Derived} {now : ℕ} {jobId : String}

theorem MapperHolds.split (h : MapperHolds (first :: rest) m) :
    Recorded m.strategy m.currentJob first ∧
      List.Forall₂ (Recorded m.strategy) m.jobHistory (rest.take 5) :=
  List.forall₂_cons.mp (h.entries (List.cons_ne_nil first rest))

theorem findJob_found (h : MapperHolds (first :: rest) m)
    (hfound : first.id = jobId ∨ ∃ d ∈ rest.take 5, d.id = jobId ∧ freshAt now d = true) :
    ∃ entry, SimpleMapper.findJob now (some jobId) m = some entry := by
  obtain ⟨hcurrent, hhistory⟩ := h.split
  unfold SimpleMapper.findJob
  split
  · exact ⟨_, rfl⟩
  · next hother =>
      rcases hfound with hid | ⟨d, hd, hid, hfresh⟩
      · rw [hcurrent.id, hcurrent.strategy, hid] at hother
        simp at hother
      · obtain ⟨entry, hentry, hrecorded⟩ := exists_of_forall₂ hhistory.flip hd
        refine Option.isSome_iff_exists.mp (List.find?_isSome.mpr ⟨entry, hentry, ?_⟩)
        have hissued := hrecorded.issuedAt
        have hyoung : now < d.created + 120000 := of_decide_eq_true hfresh
        have hunexpired : now < entry.issuedAt + SimpleMapper.kJobHistoryMs := by
          unfold SimpleMapper.kJobHistoryMs
          omega
        simp [h.valid entry hentry, hrecorded.id, hid, hrecorded.strategy, hunexpired]

/-- The mapper finds only jobs that were recorded, all of them of its own strategy. -/
theorem findJob_recorded (h : MapperHolds jobs m) {id : Option String}
    {entry : SimpleMapper.JobEntry} (hentry : SimpleMapper.findJob now id m = some entry) :
    entry.strategy = some m.strategy ∧ ∃ d ∈ jobs.take 6, id = some d.id := by
  have hrecorded : entry ∈ m.currentJob :: m.jobHistory ∧ id = some entry.job.id ∧
      entry.strategy.isSome = true := by
    unfold SimpleMapper.findJob at hentry
    split at hentry
    · next hsame =>
        rw [← Option.some.inj hentry]
        simp only [Bool.and_eq_true, decide_eq_true_eq] at hsame
        exact ⟨List.mem_cons_self, hsame⟩
    · have hp := List.find?_some hentry
      simp only [Bool.and_eq_true, decide_eq_true_eq] at hp
      exact ⟨List.mem_cons_of_mem _ (List.mem_of_find?_eq_some hentry), hp.1.1.2, hp.1.2⟩
  obtain ⟨hmem, hid, hstrategy⟩ := hrecorded
  by_cases hjobs : jobs = []
  · obtain ⟨hcurrent, hhistory⟩ := h.blank hjobs
    rw [hcurrent, hhistory, List.mem_singleton] at hmem
    rw [hmem] at hstrategy
    cases hstrategy
  · obtain ⟨d, hd, hrecorded⟩ := exists_of_forall₂ (h.entries hjobs) hmem
    exact ⟨hrecorded.strategy, d, hd, hid.trans (congrArg some hrecorded.id)⟩

end Mappers

section Layers

/-- The active client of the mapper's strategy has derived the mapper's jobs. -/
structure Serves (clock : ℕ) (clientId : String) (jobs : List Derived)
    (pools : PoolStrategy.State) :
    Prop where
  consistent : PoolStrategy.Consistent pools
  silent : jobs = [] → pools.active = none
  client : jobs ≠ [] → ∃ (a : ℕ) (c : DaemonClient.State), pools.active = some a ∧
    pools.clients[a]? = some c ∧ clientId = toString a ∧ ClientHolds clock jobs c.contexts

structure Layered (s : State) (jobs : List Derived) : Prop where
  mapper : MapperHolds jobs s.mapper
  numbered : s.mapper.strategy ≤ s.mapper.strategySequence
  current : ∃ pools, s.strategies.find s.mapper.strategy = some pools ∧
    Serves s.clock s.mapper.currentJob.job.clientId jobs pools
  pending : ∀ number, s.mapper.pending = some number → s.mapper.strategy < number ∧
    number ≤ s.mapper.strategySequence ∧
    ∃ pools, s.strategies.find number = some pools ∧ PoolStrategy.Consistent pools ∧
      pools.active = none

variable {s : State} {jobs : List Derived}

theorem Serves.mono {clock now : ℕ} {clientId : String} {pools pools' : PoolStrategy.State}
    (h : Serves clock clientId jobs pools) (hle : clock ≤ now)
    (hconsistent : PoolStrategy.Consistent pools') (hactive : pools'.active = pools.active)
    (hkept : ∀ a : ℕ, pools.active = some a → pools'.clients[a]? = pools.clients[a]?) :
    Serves now clientId jobs pools' := by
  refine ⟨hconsistent, fun hnil => hactive.trans (h.silent hnil), fun hne => ?_⟩
  obtain ⟨a, c, ha, hc, hid, hholds⟩ := h.client hne
  exact ⟨a, c, hactive.trans ha, (hkept a ha).trans hc, hid, hholds.mono hle⟩

/-- In a dated list, the first job of an id is the newest one. -/
theorem newest_of_find? {l : List Derived} {jobId : String} {d d' : Derived}
    (h : l.Pairwise fun a b => b.created ≤ a.created)
    (hfind : l.find? (fun d => d.id = jobId) = some d) (hmem : d' ∈ l) (hid : d'.id = jobId) :
    d'.created ≤ d.created := by
  induction l with
  | nil => cases hmem
  | cons a rest ih =>
      obtain ⟨ha, hrest⟩ := List.pairwise_cons.mp h
      by_cases hida : a.id = jobId
      · rw [List.find?_cons_of_pos (by simpa using hida)] at hfind
        obtain rfl := Option.some.inj hfind
        rcases List.mem_cons.mp hmem with rfl | hmem
        · exact le_rfl
        · exact ha d' hmem
      · rw [List.find?_cons_of_neg (by simpa using hida)] at hfind
        rcases List.mem_cons.mp hmem with rfl | hmem
        · exact absurd hid hida
        · exact ih hrest hfind hmem

theorem findContext_isSome {jobId : String} {contexts : List DaemonClient.JobContext} :
    (DaemonClient.findContext jobId contexts).isSome ↔
      ∃ d ∈ contexts.map derived, d.id = jobId := by
  simp [DaemonClient.findContext, List.find?_isSome, derived]

theorem ClientHolds.find_newest {clock : ℕ} {first : Derived} {rest : List Derived}
    {contexts : List DaemonClient.JobContext} (h : ClientHolds clock (first :: rest) contexts) :
    (DaemonClient.findContext first.id contexts).isSome := by
  obtain ⟨older, trimmed, hcontexts, -, -⟩ := h
  refine findContext_isSome.mpr ⟨first, ?_, rfl⟩
  rw [hcontexts]
  exact List.mem_cons_self

theorem ClientHolds.find {clock now : ℕ} {first : Derived} {rest : List Derived} {jobId : String}
    {contexts : List DaemonClient.JobContext} (h : ClientHolds clock (first :: rest) contexts)
    (hle : clock ≤ now) (hother : first.id ≠ jobId) (hrecorded : ∃ d ∈ rest.take 5, d.id = jobId) :
    (DaemonClient.findContext jobId (DaemonClient.trimContexts now contexts)).isSome ↔
      ∃ d, (rest.take 5).find? (fun d => d.id = jobId) = some d ∧ freshAt now d = true := by
  have hsorted := h.sorted
  obtain ⟨older, trimmed, hcontexts, hdated, htrimmed⟩ := h
  have hmap : (DaemonClient.trimContexts now contexts).map derived =
      Retention.recent 5 (freshAt now) (first :: (rest ++ older)) := by
    rw [map_trimContexts now hsorted, hcontexts,
      Retention.recent_recent (freshAt_anti (htrimmed.trans hle))]
    rfl
  have hfresh : (rest ++ older).Pairwise fun a b => freshAt now b = true → freshAt now a = true :=
    (List.pairwise_cons.mp hdated.fresh).2
  have htake : (rest ++ older).take 5 = rest.take 5 ++ older.take (5 - rest.length) :=
    List.take_append
  rw [findContext_isSome, hmap]
  constructor
  · rintro ⟨d, hd, hid⟩
    rcases (Retention.mem_recent_cons hfresh).mp hd with rfl | ⟨hd, hyoung⟩
    · exact absurd hid hother
    · obtain ⟨d', hd', hid'⟩ := hrecorded
      obtain ⟨d₀, hd₀⟩ := Option.isSome_iff_exists.mp
        (List.find?_isSome (p := fun d : Derived => decide (d.id = jobId)) |>.mpr
          ⟨d', hd', by simpa using hid'⟩)
      have hfirst : ((rest ++ older).take 5).find? (fun d => d.id = jobId) = some d₀ := by
        rw [htake, List.find?_append, hd₀, Option.some_or]
      have hsorted' := ((List.pairwise_cons.mp hdated.sorted).2).sublist (List.take_sublist 5 _)
      have hnewest := newest_of_find? hsorted' hfirst hd hid
      refine ⟨d₀, hd₀, ?_⟩
      have hlt : now < d.created + DaemonClient.kJobHistoryMs := of_decide_eq_true hyoung
      exact decide_eq_true (by omega)
  · rintro ⟨d, hd, hyoung⟩
    have hid : d.id = jobId := by simpa using List.find?_some hd
    refine ⟨d, (Retention.mem_recent_cons hfresh).mpr (Or.inr ⟨?_, hyoung⟩), hid⟩
    rw [htake]
    exact List.mem_append_left _ (List.mem_of_find?_eq_some hd)

/-- What the layers below the miner have of a job, in terms of what was recorded. -/
theorem resolves_iff (h : Layered s jobs) (readings : Readings) (jobId : String) :
    resolves jobId readings s = true ↔ Kept jobs jobId (readings.client s.clock) := by
  have hlater : readings.mapper s.clock ≤ readings.client s.clock := Nat.le_add_right _ _
  have hclock : s.clock ≤ readings.client s.clock := by
    unfold Readings.client Readings.mapper Readings.miner
    omega
  cases jobs with
  | nil =>
      unfold resolves
      cases hentry : SimpleMapper.findJob (readings.mapper s.clock) (some jobId) s.mapper with
      | none => simp [Kept]
      | some entry =>
          obtain ⟨-, d, hd, -⟩ := findJob_recorded h.mapper hentry
          cases hd
  | cons first rest =>
      obtain ⟨pools, hpools, hserves⟩ := h.current
      obtain ⟨a, c, ha, hc, -, hholds⟩ := hserves.client (List.cons_ne_nil first rest)
      have hclient : PoolStrategy.submitClient pools = some c := by
        unfold PoolStrategy.submitClient
        rw [hserves.consistent.submitTo ha]
        exact hc
      have hresolves : ∀ {entry}, SimpleMapper.findJob (readings.mapper s.clock)
          (some jobId) s.mapper = some entry →
          (resolves jobId readings s = true ↔ (DaemonClient.findContext jobId
            (DaemonClient.trimContexts (readings.client s.clock) c.contexts)).isSome) := by
        intro entry hentry
        obtain ⟨job, strategy, issuedAt⟩ := entry
        obtain ⟨rfl, -⟩ : strategy = some s.mapper.strategy ∧ _ := findJob_recorded h.mapper hentry
        unfold resolves
        rw [hentry]
        dsimp only
        rw [hpools, Option.bind_some, hclient, Option.any_some]
      by_cases hid : first.id = jobId
      · -- The newest job does not expire, neither at the mapper nor at the client.
        obtain ⟨entry, hentry⟩ := @findJob_found _ _ _ (readings.mapper s.clock) jobId h.mapper
          (Or.inl hid)
        rw [hresolves hentry, ← hid]
        exact ⟨fun _ => Or.inl rfl, fun _ => (hholds.trim hclock).find_newest⟩
      · have hfind : ((first :: rest).take DaemonClient.kJobHistorySize).find?
            (fun d => d.id = jobId) = (rest.take 5).find? (fun d => d.id = jobId) :=
          List.find?_cons_of_neg (by simpa using hid)
        constructor
        · intro hres
          cases hentry : SimpleMapper.findJob (readings.mapper s.clock) (some jobId) s.mapper with
          | none =>
              unfold resolves at hres
              rw [hentry] at hres
              cases hres
          | some entry =>
              have hrecorded : ∃ d ∈ rest.take 5, d.id = jobId := by
                obtain ⟨-, d, hd, hd'⟩ := findJob_recorded h.mapper hentry
                have hsame : d.id = jobId := (Option.some.inj hd').symm
                rcases List.mem_cons.mp hd with rfl | hd
                · exact absurd hsame hid
                · exact ⟨d, hd, hsame⟩
              obtain ⟨d, hd, hyoung⟩ :=
                (hholds.find hclock hid hrecorded).mp ((hresolves hentry).mp hres)
              exact Or.inr ⟨d, hfind.trans hd, of_decide_eq_true hyoung⟩
        · rintro (hhead | ⟨d, hd, hyoung⟩)
          · exact absurd (Option.some.inj hhead) hid
          · rw [hfind] at hd
            have hmem := List.mem_of_find?_eq_some hd
            have hid' : d.id = jobId := by simpa using List.find?_some hd
            have hyoung' : freshAt (readings.mapper s.clock) d = true :=
              decide_eq_true (lt_of_le_of_lt hlater hyoung)
            obtain ⟨entry, hentry⟩ := findJob_found h.mapper (Or.inr ⟨d, hmem, hid', hyoung'⟩)
            exact (hresolves hentry).mpr
              ((hholds.find hclock hid ⟨d, hmem, hid'⟩).mpr ⟨d, hd, decide_eq_true hyoung⟩)

end Layers

section Steps

variable {s : State} {jobs : List Derived} {now created : ℕ} {issue : Miner.Issue}

/-- What a mapper's output does to the recorded jobs. -/
def observeMapper (created : ℕ) (jobs : List Derived) : SimpleMapper.Output → List Derived
  | .setJob write => ⟨write.job.id, created⟩ :: jobs
  | .clearTelemetryJobs _ => []
  | _ => jobs

theorem forEach_perform (out : List SimpleMapper.Output) (s : State) (jobs : List Derived) :
    ∃ miner cache, (Handler.forEach (perform now created issue) out s).1 = { s with miner, cache } ∧
      (Handler.forEach (perform now created issue) out s).2.foldl observe jobs =
        out.foldl (observeMapper created) jobs := by
  induction out generalizing s jobs with
  | nil => exact ⟨s.miner, s.cache, rfl, rfl⟩
  | cons o rest ih =>
      have hfirst : ∃ miner cache, (perform now created issue o s).1 = { s with miner, cache } ∧
          (perform now created issue o s).2.foldl observe jobs = observeMapper created jobs o := by
        cases o with
        | clearTelemetryJobs miner => exact ⟨_, _, rfl, rfl⟩
        | setJob write =>
            refine ⟨_, _, rfl, ?_⟩
            unfold perform
            dsimp only
            split <;> rfl
        | _ => exact ⟨s.miner, s.cache, rfl, rfl⟩
      obtain ⟨miner, cache, hs, hjobs⟩ := hfirst
      obtain ⟨miner', cache', hs', hjobs'⟩ :=
        ih (perform now created issue o s).1 (observeMapper created jobs o)
      refine ⟨miner', cache', ?_, ?_⟩
      · unfold Handler.forEach Handler.seq
        rw [hs', hs]
      · unfold Handler.forEach Handler.seq
        rw [List.foldl_append, hjobs, hjobs']
        rfl

theorem atMapper_spec (f : Handler SimpleMapper.State SimpleMapper.Output) (s : State)
    (jobs : List Derived) :
    ∃ miner cache,
      (atMapper now created issue f s).1 = { s with mapper := (f s.mapper).1, miner, cache } ∧
      (atMapper now created issue f s).2.foldl observe jobs =
        (f s.mapper).2.foldl (observeMapper created) jobs :=
  forEach_perform (f s.mapper).2 { s with mapper := (f s.mapper).1 } jobs

theorem setJob_frame (recordedAt number : ℕ) (job : Job) (m : SimpleMapper.State) :
    (SimpleMapper.setJob recordedAt job number m).1.strategy = m.strategy ∧
      (SimpleMapper.setJob recordedAt job number m).1.pending = m.pending ∧
      (SimpleMapper.setJob recordedAt job number m).1.strategySequence = m.strategySequence ∧
      (SimpleMapper.setJob recordedAt job number m).1.miner = m.miner ∧
      (SimpleMapper.setJob recordedAt job number m).1.currentJob =
        ⟨job, some number, recordedAt⟩ := by
  unfold SimpleMapper.setJob
  dsimp only
  split <;> exact ⟨rfl, rfl, rfl, rfl, rfl⟩

theorem setJob_observed (recordedAt number : ℕ) (job : Job)
    {m : SimpleMapper.State} {miner : MinerId} (hminer : m.miner = some miner) :
    (SimpleMapper.setJob recordedAt job number m).2.foldl (observeMapper created) jobs =
      ⟨job.id, created⟩ :: if SimpleMapper.continues job number m then jobs else [] := by
  unfold SimpleMapper.setJob
  rw [hminer]
  dsimp only
  split <;> rfl

theorem Layered.live (h : Layered s jobs) {number : ℕ} {pools : PoolStrategy.State}
    (hpools : strategy number s = some pools) :
    s.strategies.find number = some pools ∧ PoolStrategy.Consistent pools := by
  unfold strategy at hpools
  split at hpools
  · next hlive =>
      refine ⟨hpools, ?_⟩
      rcases hlive with rfl | hpending
      · obtain ⟨current, hcurrent, hserves⟩ := h.current
        rw [← Option.some.inj (hcurrent.symm.trans hpools)]
        exact hserves.consistent
      · obtain ⟨-, -, pending, hfind, hconsistent, -⟩ := h.pending number hpending
        rw [← Option.some.inj (hfind.symm.trans hpools)]
        exact hconsistent
  · cases hpools

/-- A strategy may change in what the mapper's jobs do not depend on. -/
theorem Layered.update (h : Layered s jobs) {number : ℕ} {pools pools' : PoolStrategy.State}
    (hpools : strategy number s = some pools) (hclock : s.clock ≤ now)
    (hconsistent : PoolStrategy.Consistent pools')
    (hactive : pools'.active = pools.active)
    (hkept : ∀ a : ℕ, pools.active = some a → pools'.clients[a]? = pools.clients[a]?) :
    Layered { s with
      clock := now
      strategies := s.strategies.insert number pools' } jobs := by
  have hfind := (h.live hpools).1
  refine ⟨h.mapper, h.numbered, ?_, fun p hp => ?_⟩
  · obtain ⟨current, hcurrent, hserves⟩ := h.current
    by_cases heq : s.mapper.strategy = number
    · rw [heq] at hcurrent
      obtain rfl := Option.some.inj (hcurrent.symm.trans hfind)
      refine ⟨pools', ?_, hserves.mono hclock hconsistent hactive hkept⟩
      change (s.strategies.insert number pools').find s.mapper.strategy = some pools'
      rw [heq, Table.find_insert_self]
    · refine ⟨current, ?_, hserves.mono hclock hserves.consistent rfl fun _ _ => rfl⟩
      change (s.strategies.insert number pools').find s.mapper.strategy = some current
      rw [Table.find_insert_of_ne _ heq, hcurrent]
  · obtain ⟨hlt, hle, pending, hpending, hother, hnone⟩ := h.pending p hp
    refine ⟨hlt, hle, ?_⟩
    change ∃ q, (s.strategies.insert number pools').find p = some q ∧ _
    by_cases heq : p = number
    · rw [heq] at hpending
      obtain rfl := Option.some.inj (hpending.symm.trans hfind)
      rw [heq, Table.find_insert_self]
      exact ⟨pools', rfl, hconsistent, hactive.trans hnone⟩
    · rw [Table.find_insert_of_ne _ heq]
      exact ⟨pending, hpending, hother, hnone⟩

/-- The mapper of a strategy whose new client is active: it has no jobs that the client's first
one would continue. -/
structure Taken (number client : ℕ) (jobs : List Derived) (m : SimpleMapper.State) : Prop where
  mapper : MapperHolds jobs m
  strategy : m.strategy = number
  numbered : number ≤ m.strategySequence
  foreign : jobs ≠ [] → m.currentJob.job.clientId ≠ toString client

theorem Taken.restarts {number client : ℕ} {m : SimpleMapper.State} (h : Taken number client jobs m)
    (job : Job) :
    SimpleMapper.continues { job with clientId := toString client } number m = false := by
  by_cases hjobs : jobs = []
  · rw [SimpleMapper.continues, (h.mapper.blank hjobs).1]
    rfl
  · have hforeign := h.foreign hjobs
    simp only [SimpleMapper.continues, hforeign, decide_false, Bool.and_false]

theorem clientId_injective {a b : ℕ} (h : toString a = toString b) : a = b := by
  have hdigits : Nat.toDigits 10 a = Nat.toDigits 10 b := by
    rw [← Nat.toList_repr, ← Nat.toList_repr]
    exact congrArg String.toList h
  calc a = Nat.ofDigitChars 10 (Nat.toDigits 10 a) 0 :=
        (Nat.ofDigitChars_toDigits (by omega) (by omega)).symm
    _ = b := by rw [hdigits, Nat.ofDigitChars_toDigits (by omega) (by omega)]

theorem onActive_miner (number : ℕ) (m : SimpleMapper.State) :
    (SimpleMapper.onActive number m).1.miner = m.miner := by
  unfold SimpleMapper.onActive
  dsimp only
  split <;> rfl

/-- A client that becomes active is new to the mapper, or its strategy is. -/
theorem Layered.onActive (h : Layered s jobs) {number client : ℕ} {pools : PoolStrategy.State}
    (hpools : strategy number s = some pools) (hother : pools.active ≠ some client)
    {miner : MinerId} (hminer : s.mapper.miner = some miner) :
    Taken number client
      ((SimpleMapper.onActive number s.mapper).2.foldl (observeMapper created) jobs)
      (SimpleMapper.onActive number s.mapper).1 ∧
    ∀ p, (SimpleMapper.onActive number s.mapper).1.pending = some p →
      p ≠ number ∧ s.mapper.pending = some p ∧
        (SimpleMapper.onActive number s.mapper).1.strategy = s.mapper.strategy ∧
        (SimpleMapper.onActive number s.mapper).1.strategySequence = s.mapper.strategySequence := by
  unfold SimpleMapper.onActive
  dsimp only
  by_cases hpending : s.mapper.pending = some number
  · obtain ⟨hlt, hle, -⟩ := h.pending number hpending
    rw [if_pos hpending, hminer]
    refine ⟨⟨⟨fun _ => ⟨rfl, rfl⟩, fun hne => absurd rfl hne, fun entry hentry => by cases hentry⟩,
      rfl, hle, fun hne => absurd rfl hne⟩, fun p hp => by cases hp⟩
  · rw [if_neg hpending]
    unfold JobRetention.strategy at hpools
    split at hpools
    · next hlive =>
        have hnumber : number = s.mapper.strategy := hlive.resolve_right hpending
        refine ⟨⟨h.mapper.congr rfl rfl rfl, hnumber.symm, hnumber ▸ h.numbered, fun hjobs => ?_⟩,
          fun p hp => ⟨fun heq => hpending (heq ▸ hp), hp, rfl, rfl⟩⟩
        obtain ⟨current, hcurrent, hserves⟩ := h.current
        obtain ⟨a, c, ha, -, hid, -⟩ := hserves.client hjobs
        rw [← hnumber] at hcurrent
        obtain rfl := Option.some.inj (hcurrent.symm.trans hpools)
        intro hsame
        exact hother (clientId_injective (hid.symm.trans hsame) ▸ ha)
    · cases hpools

/-- The mapper takes the job that the active client of its strategy has derived. -/
theorem layered_setJob {number client recordedAt : ℕ} {job : Job} {miner : MinerId}
    {pools : PoolStrategy.State} {c : DaemonClient.State}
    (hmapper : MapperHolds jobs s.mapper) (hnumber : s.mapper.strategy = number)
    (hnumbered : number ≤ s.mapper.strategySequence) (hminer : s.mapper.miner = some miner)
    (hpools : s.strategies.find number = some pools) (hconsistent : PoolStrategy.Consistent pools)
    (hactive : pools.active = some client) (hc : pools.clients[client]? = some c)
    (hid : job.clientId = toString client) (hcreated : created ≤ recordedAt)
    (hholds : ClientHolds s.clock
      (⟨job.id, created⟩ :: if SimpleMapper.continues job number s.mapper then jobs else [])
      c.contexts)
    (hpending : ∀ p, s.mapper.pending = some p → s.mapper.strategy < p ∧
      p ≤ s.mapper.strategySequence ∧ ∃ pools, s.strategies.find p = some pools ∧
        PoolStrategy.Consistent pools ∧ pools.active = none) :
    Layered (atMapper now created issue (SimpleMapper.setJob recordedAt job number) s).1
        ((atMapper now created issue (SimpleMapper.setJob recordedAt job number) s).2.foldl
          observe jobs) ∧
      (atMapper now created issue (SimpleMapper.setJob recordedAt job number) s).1.mapper.miner =
        some miner := by
  obtain ⟨miner', cache, hs, hjobs⟩ := @atMapper_spec now created issue
    (SimpleMapper.setJob recordedAt job number) s jobs
  obtain ⟨hstrategy, hpend, hsequence, hheld, hcurrent⟩ :=
    setJob_frame recordedAt number job s.mapper
  rw [hs, hjobs, setJob_observed recordedAt number job hminer]
  refine ⟨⟨hmapper.setJob hnumber hcreated, ?_, ?_, ?_⟩, hheld.trans hminer⟩
  · change (SimpleMapper.setJob recordedAt job number s.mapper).1.strategy ≤
      (SimpleMapper.setJob recordedAt job number s.mapper).1.strategySequence
    rw [hstrategy, hsequence, hnumber]
    exact hnumbered
  · refine ⟨pools, ?_, ⟨hconsistent, fun hnil => absurd hnil (List.cons_ne_nil _ _), fun _ => ?_⟩⟩
    · change s.strategies.find (SimpleMapper.setJob recordedAt job number s.mapper).1.strategy = _
      rw [hstrategy, hnumber, hpools]
    · refine ⟨client, c, hactive, hc, ?_, hholds⟩
      change (SimpleMapper.setJob recordedAt job number s.mapper).1.currentJob.job.clientId = _
      rw [hcurrent]
      exact hid
  · intro p hp
    change (SimpleMapper.setJob recordedAt job number s.mapper).1.pending = some p at hp
    rw [hpend] at hp
    change (SimpleMapper.setJob recordedAt job number s.mapper).1.strategy < p ∧
      p ≤ (SimpleMapper.setJob recordedAt job number s.mapper).1.strategySequence ∧ _
    rw [hstrategy, hsequence]
    exact hpending p hp

theorem Layered.onTemplate (h : Layered s jobs) {miner : MinerId}
    (hminer : s.mapper.miner = some miner) (number client : ℕ) (job : Job)
    (context : DaemonClient.JobContext) (issue : Miner.Issue)
    (delays : Delays) :
    Layered (onTemplate number client job context issue delays s).1
        ((onTemplate number client job context issue delays s).2.foldl observe jobs) ∧
      (onTemplate number client job context issue delays s).1.mapper.miner = some miner := by
  unfold JobRetention.onTemplate
  cases hpools : strategy number s with
  | none => exact ⟨h, hminer⟩
  | some pools =>
      dsimp only
      obtain ⟨hfind, hconsistent⟩ := h.live hpools
      obtain ⟨hafter, hcases⟩ := hconsistent.installTemplate
        (s.clock + delays.created + delays.trimmed)
        client { context with
          jobId := job.id
          createdSteadyMs := s.clock + delays.created }
      generalize PoolStrategy.installTemplate _ client _ pools = result at hafter hcases
      rcases hcases with ⟨hdelivered, hactivated, hactive, hkept⟩ |
        ⟨hdelivered, hactivated, hactive, hactive', c, hc, hc'⟩ |
        ⟨hdelivered, hactivated, hother, hactive', c, hc', hcontexts⟩
      · rw [hdelivered, hactivated]
        refine ⟨h.update hpools ?_ hafter hactive hkept, hminer⟩
        omega
      · -- The active client of the mapper's own strategy has another job.
        simp only [hdelivered, hactivated, Bool.false_eq_true, if_false, if_true, Handler.skip_seq]
        have hnumber : s.mapper.strategy = number := by
          unfold strategy at hpools
          split at hpools
          · next hlive =>
              refine (hlive.resolve_right fun hpending => ?_).symm
              obtain ⟨-, -, pending, hpend, -, hnone⟩ := h.pending number hpending
              rw [Option.some.inj (hpend.symm.trans hfind), hactive] at hnone
              cases hnone
          · cases hpools
        obtain ⟨current, hcurrent, hserves⟩ := h.current
        rw [hnumber] at hcurrent
        obtain rfl := Option.some.inj (hcurrent.symm.trans hfind)
        have hjobs : jobs ≠ [] := by
          intro hnil
          rw [hserves.silent hnil] at hactive
          cases hactive
        obtain ⟨a, c₀, ha, hc₀, -, hholds⟩ := hserves.client hjobs
        obtain rfl := Option.some.inj (ha.symm.trans hactive)
        obtain rfl := Option.some.inj (hc₀.symm.trans hc)
        have hinstalled : ClientHolds (s.clock + delays.created + delays.trimmed)
            (⟨job.id, s.clock + delays.created⟩ :: jobs)
            (DaemonClient.trimContexts (s.clock + delays.created + delays.trimmed)
              ({ context with
                jobId := job.id
                createdSteadyMs := s.clock + delays.created } :: c₀.contexts)) :=
          hholds.install (Nat.le_add_right _ _) (Nat.le_add_right _ _)
        have hlater : s.clock + delays.created + delays.trimmed ≤
            s.clock + delays.created + delays.trimmed + delays.recorded + delays.written := by omega
        refine layered_setJob h.mapper hnumber (hnumber ▸ h.numbered) hminer
          (Table.find_insert_self _ _ _) hafter hactive' hc' rfl (by omega) ?_ fun p hp => ?_
        · refine ClientHolds.mono ?_ hlater
          split
          · exact hinstalled
          · have hbefore : ClientHolds _ ([⟨job.id, s.clock + delays.created⟩] ++ jobs) _ :=
              hinstalled
            exact hbefore.forget
        · obtain ⟨hlt, hle, pending, hpend, hrest⟩ := h.pending p hp
          refine ⟨hlt, hle, pending, ?_, hrest⟩
          change (s.strategies.insert number result.strategy).find p = some pending
          rw [Table.find_insert_of_ne _ (by omega), hpend]
      · -- The client becomes active, and the mapper starts over.
        simp only [hdelivered, hactivated, if_true]
        obtain ⟨htaken, hstill⟩ := @Layered.onActive s jobs
          (s.clock + delays.created) h number client
          pools hpools hother miner hminer
        obtain ⟨miner', cache, hs, hjobs⟩ := @atMapper_spec
          (s.clock + delays.created + delays.trimmed + delays.recorded + delays.written)
          (s.clock + delays.created) issue (SimpleMapper.onActive number)
          { s with
            clock := s.clock + delays.created + delays.trimmed + delays.recorded + delays.written
            strategies := s.strategies.insert number result.strategy } jobs
        unfold Handler.seq
        rw [List.foldl_append, hs, hjobs]
        refine layered_setJob htaken.mapper htaken.strategy htaken.numbered
          ((onActive_miner number s.mapper).trans hminer)
            (Table.find_insert_self _ _ _) hafter hactive'
          hc' rfl (by omega) ?_ fun p hp => ?_
        · dsimp only
          rw [htaken.restarts, hcontexts, if_neg Bool.false_ne_true]
          refine ClientHolds.mono (clientHolds_first (Nat.le_add_right _ _)) ?_
          omega
        · obtain ⟨hne, hp, hstrategy, hsequence⟩ := hstill p hp
          obtain ⟨hlt, hle, pending, hpend, hrest⟩ := h.pending p hp
          refine ⟨hstrategy.trans_lt hlt, hsequence ▸ hle, pending, ?_, hrest⟩
          change (s.strategies.insert number result.strategy).find p = some pending
          rw [Table.find_insert_of_ne _ hne, hpend]

theorem Layered.onConnectFailed (h : Layered s jobs) (number client failures : ℕ) :
    Layered (onConnectFailed number client failures s) jobs ∧
      (onConnectFailed number client failures s).mapper.miner = s.mapper.miner := by
  unfold JobRetention.onConnectFailed
  split
  · exact ⟨h, rfl⟩
  · next pools hpools =>
      split
      · next hconnecting =>
          obtain ⟨hconsistent, hpaused, hactive, hkept⟩ :=
            (h.live hpools).2.onClose failures hconnecting
          have hupdated := h.update hpools le_rfl hconsistent hactive hkept
          dsimp only
          rw [hpaused]
          exact ⟨hupdated, rfl⟩
      · exact ⟨h, rfl⟩

/-- The new strategy gets a number of its own. -/
theorem Layered.reload (h : Layered s jobs) (pools retries : ℕ) :
    Layered (reload pools retries s) jobs := by
  have hfresh : ∀ number, number ≤ s.mapper.strategySequence →
      number ≠ s.mapper.strategySequence + 1 := by
    intro number hle
    omega
  refine ⟨h.mapper.congr rfl rfl rfl, h.numbered.trans (Nat.le_succ _), ?_, fun p hp => ?_⟩
  · obtain ⟨current, hcurrent, hserves⟩ := h.current
    refine ⟨current, ?_, hserves⟩
    exact (Table.find_insert_of_ne _ (hfresh _ h.numbered) _).trans hcurrent
  · obtain rfl : s.mapper.strategySequence + 1 = p := Option.some.inj hp
    obtain ⟨hconsistent, hactive, -⟩ :=
      (PoolStrategy.consistent_createStrategy pools retries).connect
    exact ⟨Nat.lt_succ_of_le h.numbered, le_rfl, _, Table.find_insert_self _ _ _, hconsistent,
      hactive⟩

theorem consistent_trimContexts {pools : PoolStrategy.State} (h : PoolStrategy.Consistent pools)
    (now : ℕ) : PoolStrategy.Consistent (PoolStrategy.trimContexts now pools) := by
  unfold PoolStrategy.trimContexts
  split
  · exact h
  · refine h.updateClient (fun _ _ => rfl) fun c _ _ hnil => ?_
    dsimp only
    rw [hnil]
    rfl

theorem Layered.submit (h : Layered s jobs) (event : SubmitEvent) (readings : Readings) :
    Layered (submit event readings s) jobs := by
  have hclock : s.clock ≤ readings.client s.clock := by
    unfold Readings.client Readings.mapper Readings.miner
    omega
  have hwait : Layered { s with clock := readings.client s.clock } jobs := by
    refine ⟨h.mapper, h.numbered, ?_, h.pending⟩
    obtain ⟨current, hcurrent, hserves⟩ := h.current
    exact ⟨current, hcurrent, hserves.mono hclock hserves.consistent rfl fun _ _ => rfl⟩
  unfold JobRetention.submit
  dsimp only
  split
  · exact hwait
  · next number request hcheck =>
      split
      · exact hwait
      · next pools hpools =>
          obtain ⟨hnumber, hjobs⟩ : number = s.mapper.strategy ∧ jobs ≠ [] := by
            unfold SimpleMapper.checkSubmit at hcheck
            split at hcheck
            · cases hcheck
            split at hcheck
            · next job found issuedAt hentry =>
                obtain ⟨hstrategy, d, hd, -⟩ := findJob_recorded h.mapper hentry
                split at hcheck
                · cases hcheck
                · obtain ⟨rfl, -⟩ := Prod.mk.inj (Except.ok.inj hcheck)
                  refine ⟨Option.some.inj hstrategy, ?_⟩
                  rintro rfl
                  cases hd
            · cases hcheck
          obtain ⟨current, hcurrent, hserves⟩ := h.current
          rw [← hnumber] at hcurrent
          obtain rfl := Option.some.inj (hcurrent.symm.trans hpools)
          obtain ⟨a, c, ha, hc, hid, hholds⟩ := hserves.client hjobs
          have htrim : PoolStrategy.trimContexts (readings.client s.clock) current =
              PoolStrategy.updateClient a (fun c => { c with
                contexts := DaemonClient.trimContexts (readings.client s.clock) c.contexts })
              current := by
            unfold PoolStrategy.trimContexts
            rw [hserves.consistent.submitTo ha]
          have hafter : Serves (readings.client s.clock) s.mapper.currentJob.job.clientId jobs
              (PoolStrategy.trimContexts (readings.client s.clock) current) := by
            refine ⟨consistent_trimContexts hserves.consistent _, fun hnil => absurd hnil hjobs,
              fun _ => ⟨a, { c with
                contexts := DaemonClient.trimContexts (readings.client s.clock) c.contexts },
                ?_, ?_, hid, hholds.trim hclock⟩⟩
            · rw [htrim]
              exact ha
            · rw [htrim, PoolStrategy.getElem?_updateClient, if_pos rfl, hc]
              rfl
          refine ⟨h.mapper, h.numbered, ⟨_, ?_, hafter⟩, fun p hp => ?_⟩
          · exact (congrArg _ hnumber.symm).trans (Table.find_insert_self _ _ _)
          · obtain ⟨hlt, hle, pending, hpend, hrest⟩ := h.pending p hp
            refine ⟨hlt, hle, pending, ?_, hrest⟩
            exact (Table.find_insert_of_ne _ (by omega) _).trans hpend

end Steps

section Runs

variable {pools retries : ℕ} {miner : MinerId} {rpcId : String} {customDiff : ℕ}

/-- The miner is gone for good, or the layers below it are as recorded. -/
def Attached (miner : MinerId) (s : State) (tr : List Output) : Prop :=
  (s.mapper.miner = none ∧ s.miner.stage = .closing) ∨
    (s.mapper.miner = some miner ∧ Layered s (records tr))

theorem attached_initial :
    Attached miner (machine pools retries miner rpcId customDiff).init [] := by
  obtain ⟨hconsistent, hactive, -⟩ := (PoolStrategy.consistent_createStrategy pools retries).connect
  refine Or.inr ⟨rfl, mapperHolds_initial 0 miner, le_rfl, ?_, fun p hp => by cases hp⟩
  exact ⟨_, Table.find_insert_self _ _ _,
    ⟨hconsistent, fun _ => hactive, fun hne => absurd rfl hne⟩⟩

/-- A mapper without a miner asks nothing of it. -/
theorem onTemplate_alone {s : State} (hnone : s.mapper.miner = none) (number client : ℕ) (job : Job)
    (context : DaemonClient.JobContext) (issue : Miner.Issue) (delays : Delays) :
    (onTemplate number client job context issue delays s).1.mapper.miner = none ∧
      (onTemplate number client job context issue delays s).1.miner = s.miner := by
  have hactive : ∀ (now created : ℕ) (s' : State), s'.mapper.miner = none →
      (atMapper now created issue (SimpleMapper.onActive number) s').1.mapper.miner = none ∧
        (atMapper now created issue (SimpleMapper.onActive number) s').1.miner = s'.miner := by
    intro now created s' hnone'
    unfold atMapper SimpleMapper.onActive
    dsimp only
    split
    · rw [hnone']
      exact ⟨rfl, rfl⟩
    · exact ⟨hnone', rfl⟩
  have hjob : ∀ (now created recordedAt : ℕ) (job : Job) (s' : State), s'.mapper.miner = none →
      (atMapper now created issue (SimpleMapper.setJob recordedAt job number) s').1.mapper.miner =
        none ∧ (atMapper now created issue (SimpleMapper.setJob recordedAt job number) s').1.miner =
          s'.miner := by
    intro now created recordedAt job s' hnone'
    unfold atMapper SimpleMapper.setJob
    dsimp only
    rw [hnone']
    split <;> exact ⟨rfl, rfl⟩
  unfold onTemplate
  split
  · exact ⟨hnone, rfl⟩
  · dsimp only
    unfold Handler.seq
    generalize PoolStrategy.installTemplate _ client _ _ = result
    cases result.activated with
    | false =>
        cases result.delivered with
        | false => exact ⟨hnone, rfl⟩
        | true => exact hjob _ _ _ _ _ hnone
    | true =>
        have hfirst := hactive
          (s.clock + delays.created + delays.trimmed + delays.recorded + delays.written)
          (s.clock + delays.created)
          { s with
            clock := s.clock + delays.created + delays.trimmed + delays.recorded + delays.written
            strategies := s.strategies.insert number result.strategy } hnone
        cases result.delivered with
        | false => exact hfirst
        | true =>
            have hsecond := hjob
              (s.clock + delays.created + delays.trimmed + delays.recorded + delays.written)
              (s.clock + delays.created)
              (s.clock + delays.created + delays.trimmed + delays.recorded)
              { job with clientId := toString client } _ hfirst.1
            exact ⟨hsecond.1, hsecond.2.trans hfirst.2⟩

theorem submit_frame (event : SubmitEvent) (readings : Readings) (s : State) :
    (submit event readings s).mapper = s.mapper ∧ (submit event readings s).miner = s.miner := by
  unfold submit
  dsimp only
  split
  · exact ⟨rfl, rfl⟩
  split <;> exact ⟨rfl, rfl⟩

/-- Unless an open connection refused a job, the miner retains the six newest jobs. -/
def Remembers (s : State) (tr : List Output) : Prop :=
  (∀ o ∈ tr, o ≠ .refused) → s.miner.stage ≠ .closing →
    s.miner.telemetryJobs.map Miner.TelemetryJob.id = ((records tr).take 6).map Derived.id

theorem Remembers.same {s s' : State} {tr : List Output} (h : Remembers s tr)
    (hsame : s'.miner = s.miner) : Remembers s' tr := by
  unfold Remembers
  rw [hsame]
  exact h

theorem sendJob_stage (m : Miner.State) :
    (Miner.sendJob m).stage = .closing ↔ m.stage = .closing := by
  unfold Miner.sendJob
  split
  · next hwait => simp [hwait]
  · exact Iff.rfl

/-- A job that is written is retained in front of the others. -/
theorem setJob_retained (now : ℕ) (issue : Miner.Issue) (job : Job)
    (extraNonce : ℤ) (m : Miner.State) (cache : Miner.Cache) :
    ((Miner.setJob now issue job extraNonce m cache).1.stage = .closing ↔ m.stage = .closing) ∧
      (issue.written = true →
        (Miner.setJob now issue job extraNonce m cache).1.telemetryJobs.map Miner.TelemetryJob.id =
          (job.id :: m.telemetryJobs.map Miner.TelemetryJob.id).take 6) := by
  unfold Miner.setJob Miner.deliver
  dsimp only
  cases issue.written with
  | false => exact ⟨sendJob_stage _, fun h => by cases h⟩
  | true =>
      refine ⟨sendJob_stage _, fun _ => ?_⟩
      simp only [Bool.not_true, Bool.false_eq_true, if_false, Miner.rememberJob, Miner.retain,
        Miner.telemetryOf, Miner.sendJob_telemetryJobs, List.map_take, List.map_cons]
      rfl

theorem remembers_perform (now created : ℕ) (issue : Miner.Issue) (o : SimpleMapper.Output) :
    Handler.Preserves Remembers (perform now created issue o) := by
  intro s tr h
  cases o with
  | clearTelemetryJobs miner =>
      intro _ _
      rw [records_append]
      rfl
  | setJob write =>
      intro hopen hstage
      unfold perform at hopen hstage ⊢
      dsimp only at hopen hstage ⊢
      obtain ⟨hclosing, hretained⟩ := setJob_retained now
        { issue with written := issue.written && !decide (s.miner.stage = .closing) } write.job
        write.extraNonce s.miner s.cache
      have hopen' : s.miner.stage ≠ .closing := fun hclosed => hstage (hclosing.mpr hclosed)
      have hwritten : issue.written = true := by
        by_contra hrefused
        refine hopen .refused ?_ rfl
        simp [hrefused, hopen']
      have hbefore := h (fun o ho => hopen o (List.mem_append_left _ ho)) hopen'
      rw [hretained (by simp [hwritten, hopen']), hbefore, records_append]
      simp [hwritten, observe, List.map_take, List.take_take]
  | _ =>
      have hskip : Remembers s (tr ++ []) := by rwa [List.append_nil]
      exact hskip

theorem remembers_atMapper (now created : ℕ) (issue : Miner.Issue)
    (f : Handler SimpleMapper.State SimpleMapper.Output) :
    Handler.Preserves Remembers (atMapper now created issue f) := by
  intro s tr h
  exact Handler.Preserves.forEach (remembers_perform now created issue) _ _ tr (h.same rfl)

theorem Remembers.step {s : State} {tr : List Output} (h : Remembers s tr) (e : Event) :
    Remembers (step e s).1 (tr ++ (step e s).2) := by
  have hquiet : ∀ {s' : State}, s'.miner = s.miner → Remembers s' (tr ++ []) := by
    intro s' hsame
    rw [List.append_nil]
    exact h.same hsame
  cases e with
  | template number client job context issue delays =>
      change Remembers (onTemplate number client job context issue delays s).1
        (tr ++ (onTemplate number client job context issue delays s).2)
      unfold onTemplate
      split
      · exact hquiet rfl
      · dsimp only
        refine Handler.Preserves.seq ?_ ?_ _ tr (h.same rfl)
        · split
          · exact remembers_atMapper _ _ _ _
          · exact Handler.preserves_skip _
        · split
          · exact remembers_atMapper _ _ _ _
          · exact Handler.preserves_skip _
  | connectFailed number client failures =>
      apply hquiet
      change (onConnectFailed number client failures s).miner = s.miner
      unfold onConnectFailed
      split
      · rfl
      split <;> rfl
  | reload pools retries => exact hquiet rfl
  | submit event readings => exact hquiet (submit_frame event readings s).2
  | shutdown => exact fun _ hstage => absurd rfl hstage
  | close => exact fun _ hstage => absurd rfl hstage

theorem remembers_run (es : ℕ → Event) (k : ℕ) :
    Remembers ((machine pools retries miner rpcId customDiff).state es k)
      ((machine pools retries miner rpcId customDiff).trace es k) :=
  Machine.invariant_trace (fun _ _ => rfl) (fun _ _ e h => h.step e) k

theorem Attached.step {s : State} {tr : List Output} (h : Attached miner s tr) (e : Event) :
    Attached miner (step e s).1 (tr ++ (step e s).2) := by
  rcases h with ⟨hnone, hclosing⟩ | ⟨hminer, hlayered⟩
  · apply Or.inl
    cases e with
    | template number client job context issue delays =>
        obtain ⟨hnone', hsame⟩ := onTemplate_alone hnone number client job context issue delays
        exact ⟨hnone', (congrArg Miner.State.stage hsame).trans hclosing⟩
    | connectFailed number client failures =>
        change (onConnectFailed number client failures s).mapper.miner = none ∧
          (onConnectFailed number client failures s).miner.stage = .closing
        unfold onConnectFailed
        split
        · exact ⟨hnone, hclosing⟩
        split
        · refine ⟨?_, hclosing⟩
          dsimp only
          split
          · unfold SimpleMapper.onPause
            split <;> exact hnone
          · exact hnone
        · exact ⟨hnone, hclosing⟩
    | reload pools retries => exact ⟨hnone, hclosing⟩
    | submit event readings =>
        obtain ⟨hmapper, hsame⟩ := submit_frame event readings s
        exact ⟨(congrArg SimpleMapper.State.miner hmapper).trans hnone,
          (congrArg Miner.State.stage hsame).trans hclosing⟩
    | shutdown => exact ⟨hnone, rfl⟩
    | close => exact ⟨rfl, rfl⟩
  · have hquiet : ∀ {s' : State}, s'.mapper.miner = some miner → Layered s' (records tr) →
        Attached miner s' (tr ++ []) := by
      intro s' hminer' hlayered'
      rw [List.append_nil]
      exact Or.inr ⟨hminer', hlayered'⟩
    cases e with
    | template number client job context issue delays =>
        obtain ⟨hlayered', hminer'⟩ :=
          hlayered.onTemplate hminer number client job context issue delays
        exact Or.inr ⟨hminer', (records_append tr _).symm ▸ hlayered'⟩
    | connectFailed number client failures =>
        obtain ⟨hlayered', hsame⟩ := hlayered.onConnectFailed number client failures
        exact hquiet (hsame.trans hminer) hlayered'
    | reload pools retries => exact hquiet hminer (hlayered.reload pools retries)
    | submit event readings =>
        have hmapper := (submit_frame event readings s).1
        exact hquiet ((congrArg SimpleMapper.State.miner hmapper).trans hminer)
          (hlayered.submit event readings)
    | shutdown =>
        exact hquiet hminer ⟨hlayered.mapper, hlayered.numbered, hlayered.current, hlayered.pending⟩
    | close => exact Or.inl ⟨rfl, rfl⟩

theorem attached_run (es : ℕ → Event) (k : ℕ) :
    Attached miner ((machine pools retries miner rpcId customDiff).state es k)
      ((machine pools retries miner rpcId customDiff).trace es k) :=
  Machine.invariant_trace attached_initial (fun _ _ e h => h.step e) k

end Runs

section Agreement

/-- For every submission at any point of any run: when the miner admits the share, the layers
below still have its job exactly when it is the newest one, or at most five newer ones have come
and the daemon client's clock is not yet 120 seconds past the job's context. Without refused
writes there never are more than five newer ones. -/
theorem retention_agreement (pools retries : ℕ) (miner : MinerId) (rpcId : String) (customDiff : ℕ)
    (es : ℕ → Event) (k : ℕ) (jobId : String) (readings : Readings) :
    let s := (machine pools retries miner rpcId customDiff).state es k
    let tr := (machine pools retries miner rpcId customDiff).trace es k
    ((admits jobId readings s = true → resolves jobId readings s = true) ↔
      (admits jobId readings s = true → Kept (records tr) jobId (readings.client s.clock))) ∧
    ((∀ o ∈ tr, o ≠ .refused) → admits jobId readings s = true →
      ∃ d ∈ (records tr).take DaemonClient.kJobHistorySize, d.id = jobId) := by
  intro s tr
  have hready : admits jobId readings s = true → s.miner.stage = .ready ∧
      ∃ job ∈ s.miner.telemetryJobs, job.id = jobId := by
    intro hadmits
    simp only [admits, Bool.and_eq_true, decide_eq_true_eq] at hadmits
    obtain ⟨hstage, hfound⟩ := hadmits
    refine ⟨hstage, ?_⟩
    cases hjob : Miner.findTelemetryJob (readings.miner s.clock) jobId s.miner with
    | none =>
        rw [hjob] at hfound
        cases hfound
    | some job =>
        have hp := List.find?_some hjob
        simp only [Bool.and_eq_true, decide_eq_true_eq] at hp
        exact ⟨job, List.mem_of_find?_eq_some hjob, hp.1⟩
  constructor
  · refine forall_congr' fun hadmits => ?_
    have hstage := (hready hadmits).1
    rcases attached_run es k with ⟨-, hclosing⟩ | ⟨-, hlayered⟩
    · rw [hclosing] at hstage
      cases hstage
    · exact resolves_iff hlayered readings jobId
  · intro hopen hadmits
    obtain ⟨hstage, job, hjob, hid⟩ := hready hadmits
    have hids := remembers_run es k hopen (by rw [hstage]; decide)
    have hmem : jobId ∈ ((records tr).take 6).map Derived.id := by
      rw [← hids, ← hid]
      exact List.mem_map_of_mem hjob
    exact List.mem_map.mp hmem

section Disagreement

def laggingJob (id : String) : Job :=
  { algorithm := Algorithm.RX_0, id, blob := [1], diff := 1, height := 7, rawBlob := "01"
    templateEntropy := "e" }

/-- Two jobs, each written one millisecond after its context was made. -/
def laggingWrites : List Event :=
  ["a", "b"].map fun id =>
    .template 0 0 (laggingJob id) { jobId := id, createdSteadyMs := 0 } {}
      { created := 1000, written := 1 }

/-- In its last millisecond at the miner, the first job is gone at the daemon client. -/
theorem retention_disagreement :
    ¬ ∀ (es : ℕ → Event) (k : ℕ) (jobId : String) (readings : Readings),
      admits jobId readings ((machine 1 5 1 "m" 0).state es k) = true →
        resolves jobId readings ((machine 1 5 1 "m" 0).state es k) = true := by
  intro h
  have hrun := h (follow laggingWrites .shutdown) 2 "a" { found := 118998 }
  exact absurd (hrun (by decide)) (by decide)

end Disagreement

end Agreement

end XmrigProxy.JobRetention
