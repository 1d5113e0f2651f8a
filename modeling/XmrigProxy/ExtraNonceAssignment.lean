import XmrigProxy.DaemonJobs
import XmrigProxy.ExtraNonceSplitter

/-! No two miners of the extra-nonce mode work on one coinbase: what each of them was last sent is
the current job with an extra nonce that no other has. -/
namespace XmrigProxy

open UpstreamMapper (Output)

namespace ExtraNonceSplitter

def Output.write? : Output → Option JobWrite
  | .write write => some write
  | _ => none

/-- The jobs that were written to a miner, the oldest first. -/
def sentTo (miner : MinerId) (tr : List Output) : List JobWrite :=
  (tr.filterMap Output.write?).filter (·.miner = miner)

/-- What a miner works on. -/
def lastSent (miner : MinerId) (tr : List Output) : Option JobWrite := (sentTo miner tr).getLast?

section Sent

variable {miner : MinerId} {tr out : List Output} {write : JobWrite}

theorem lastSent_append : lastSent miner (tr ++ out) =
    (lastSent miner out).or (lastSent miner tr) := by
  unfold lastSent sentTo
  rw [List.filterMap_append, List.filter_append, List.getLast?_append]

theorem mem_of_lastSent (h : lastSent miner tr = some write) :
    write ∈ tr.filterMap Output.write? ∧ write.miner = miner := by
  have hmem := List.mem_filter.mp (List.mem_of_getLast? h)
  exact ⟨hmem.1, of_decide_eq_true hmem.2⟩

theorem lastSent_eq_none (h : ∀ write ∈ tr.filterMap Output.write?, write.miner ≠ miner) :
    lastSent miner tr = none := by
  cases hlast : lastSent miner tr with
  | none => rfl
  | some write =>
      obtain ⟨hmem, hminer⟩ := mem_of_lastSent hlast
      exact absurd hminer (h write hmem)

theorem lastSent_ne_none (hmem : write ∈ tr.filterMap Output.write?) :
    lastSent write.miner tr ≠ none := by
  intro hnone
  have hsent : write ∈ sentTo write.miner tr :=
    List.mem_filter.mpr ⟨hmem, decide_eq_true rfl⟩
  rw [List.getLast?_eq_none_iff.mp hnone] at hsent
  exact absurd hsent List.not_mem_nil

theorem writes_map (writes : List JobWrite) :
    (writes.map .write).filterMap Output.write? = writes := by
  rw [List.filterMap_map]
  exact List.filterMap_some

theorem writes_map_of_none {α : Type} {f : α → Output} (hf : ∀ a, Output.write? (f a) = none)
    (l : List α) : (l.map f).filterMap Output.write? = [] := by
  rw [List.filterMap_map, List.filterMap_eq_nil_iff]
  exact fun a _ => hf a

end Sent

/-! ### The upstream -/

/-- Every registered miner that was sent a job works on the current one, each with another
number. -/
structure Issued (storage : ExtraNonceStorage.State) (tr : List Output) : Prop where
  current : ∀ miner ∈ storage.miners, ∀ write, lastSent miner tr = some write →
    write.job = storage.job ∧ 0 ≤ write.extraNonce ∧ write.extraNonce < storage.extraNonce
  distinct : ∀ a ∈ storage.miners, ∀ b ∈ storage.miners, a ≠ b → ∀ writeA writeB,
    lastSent a tr = some writeA → lastSent b tr = some writeB →
    writeA.extraNonce ≠ writeB.extraNonce
  counted : 0 ≤ storage.extraNonce

/-- What a handler of the pools does to the storage. -/
structure Acts (storage storage' : ExtraNonceStorage.State) (out : List Output) : Prop where
  acts : ∃ active, (storage' = ExtraNonceStorage.setActive active storage ∧
      out.filterMap Output.write? = []) ∨
    ∃ job, ExtraNonceStorage.setJob job (ExtraNonceStorage.setActive active storage) =
      (storage', out.filterMap Output.write?)

section Upstream

variable {storage storage' : ExtraNonceStorage.State} {tr out : List Output} {miner : MinerId}

theorem Issued.quiet (h : Issued storage tr) (hout : out.filterMap Output.write? = []) :
    Issued storage (tr ++ out) := by
  have hsame : ∀ miner, lastSent miner (tr ++ out) = lastSent miner tr := by
    intro miner
    have hnone : lastSent miner out = none :=
      lastSent_eq_none fun write hwrite => absurd (hout ▸ hwrite) List.not_mem_nil
    rw [lastSent_append, hnone, Option.none_or]
  constructor
  case current =>
    intro miner hminer write hwrite
    rw [hsame] at hwrite
    exact h.current miner hminer write hwrite
  case distinct =>
    intro a ha b hb hne writeA writeB hA hB
    rw [hsame] at hA hB
    exact h.distinct a ha b hb hne writeA writeB hA hB
  case counted => exact h.counted

theorem Issued.setActive (h : Issued storage tr) (active : Bool) :
    Issued (ExtraNonceStorage.setActive active storage) tr :=
  ⟨h.current, h.distinct, h.counted⟩

theorem Issued.remove (h : Issued storage tr) (miner : MinerId) :
    Issued (ExtraNonceStorage.remove miner storage) tr := by
  have hmem : ∀ a ∈ (ExtraNonceStorage.remove miner storage).miners, a ∈ storage.miners :=
    fun a ha => Finset.mem_of_mem_erase ha
  exact ⟨fun a ha => h.current a (hmem a ha),
    fun a ha b hb => h.distinct a (hmem a ha) b (hmem b hb), h.counted⟩

/-- A job goes to every miner, with its position among them. -/
theorem mem_setJob {job : Job} {write : JobWrite} :
    write ∈ (ExtraNonceStorage.setJob job storage).2 ↔
      ∃ i : ℕ, (storage.miners.sort (· ≤ ·))[i]? = some write.miner ∧
        write = ⟨write.miner, job, i⟩ := by
  have hwrites : (ExtraNonceStorage.setJob job storage).2 =
      (storage.miners.sort (· ≤ ·)).mapIdx fun i miner => ⟨miner, job, (i : ℤ)⟩ := rfl
  rw [hwrites, List.mem_iff_getElem?]
  constructor
  · rintro ⟨i, hi⟩
    rw [List.getElem?_mapIdx, Option.map_eq_some_iff] at hi
    obtain ⟨miner, hminer, rfl⟩ := hi
    exact ⟨i, hminer, rfl⟩
  · rintro ⟨i, hi, hwrite⟩
    refine ⟨i, ?_⟩
    rw [List.getElem?_mapIdx, hi, Option.map_some]
    exact congrArg some hwrite.symm

/-- After a new job nothing from before it counts. -/
theorem issued_setJob (job : Job) (storage : ExtraNonceStorage.State) (tr : List Output)
    (hout : out.filterMap Output.write? = (ExtraNonceStorage.setJob job storage).2) :
    Issued (ExtraNonceStorage.setJob job storage).1 (tr ++ out) := by
  have hlast : ∀ miner ∈ storage.miners, ∀ write, lastSent miner (tr ++ out) = some write →
      ∃ i : ℕ, (storage.miners.sort (· ≤ ·))[i]? = some miner ∧ write = ⟨miner, job, i⟩ := by
    intro miner hminer write hwrite
    obtain ⟨i, hi⟩ := List.mem_iff_getElem?.mp ((Finset.mem_sort (· ≤ ·)).mpr hminer)
    have hsent : (⟨miner, job, i⟩ : JobWrite) ∈ out.filterMap Output.write? := by
      rw [hout]
      exact mem_setJob.mpr ⟨i, hi, rfl⟩
    have hsome : (lastSent miner out).isSome :=
      Option.isSome_iff_ne_none.mpr (lastSent_ne_none hsent)
    rw [lastSent_append, Option.or_of_isSome hsome] at hwrite
    obtain ⟨hmem, rfl⟩ := mem_of_lastSent hwrite
    rw [hout] at hmem
    exact mem_setJob.mp hmem
  constructor
  case current =>
    intro miner hminer write hwrite
    obtain ⟨i, hi, rfl⟩ := hlast miner hminer write hwrite
    obtain ⟨hlt, -⟩ := List.getElem?_eq_some_iff.mp hi
    rw [Finset.length_sort] at hlt
    refine ⟨rfl, Int.natCast_nonneg i, ?_⟩
    exact Int.ofNat_lt.mpr hlt
  case distinct =>
    intro a ha b hb hne writeA writeB hA hB heq
    obtain ⟨i, hi, rfl⟩ := hlast a ha writeA hA
    obtain ⟨j, hj, rfl⟩ := hlast b hb writeB hB
    obtain rfl : i = j := Int.natCast_inj.mp heq
    exact hne (Option.some.inj (hi.symm.trans hj))
  case counted => exact Int.natCast_nonneg _

/-- A miner that joins gets the next number, or waits for a job. -/
theorem Issued.add (h : Issued storage tr) (hfresh : lastSent miner tr = none)
    (hout : out.filterMap Output.write? = (ExtraNonceStorage.add miner storage).2) :
    Issued (ExtraNonceStorage.add miner storage).1 (tr ++ out) := by
  unfold ExtraNonceStorage.add at hout ⊢
  dsimp only at hout ⊢
  cases hactive : storage.active with
  | false =>
      rw [hactive] at hout
      rw [if_neg Bool.false_ne_true] at hout ⊢
      have hquiet := h.quiet hout
      have hnone : lastSent miner (tr ++ out) = none := by
        have hnot : lastSent miner out = none :=
          lastSent_eq_none fun write hwrite => absurd (hout ▸ hwrite) List.not_mem_nil
        rw [lastSent_append, hnot, Option.none_or, hfresh]
      constructor
      case current =>
        intro a ha write hwrite
        rcases Finset.mem_insert.mp ha with rfl | ha
        · rw [hnone] at hwrite
          exact absurd hwrite (Option.some_ne_none write).symm
        · exact hquiet.current a ha write hwrite
      case distinct =>
        intro a ha b hb hne writeA writeB hA hB
        rcases Finset.mem_insert.mp ha with rfl | ha
        · rw [hnone] at hA
          exact absurd hA (Option.some_ne_none _).symm
        rcases Finset.mem_insert.mp hb with rfl | hb
        · rw [hnone] at hB
          exact absurd hB (Option.some_ne_none _).symm
        · exact hquiet.distinct a ha b hb hne writeA writeB hA hB
      case counted => exact hquiet.counted
  | true =>
      rw [hactive] at hout
      rw [if_pos rfl] at hout ⊢
      have hself : lastSent miner (tr ++ out) = some ⟨miner, storage.job, storage.extraNonce⟩ := by
        have hone : lastSent miner out = some ⟨miner, storage.job, storage.extraNonce⟩ := by
          unfold lastSent sentTo
          rw [hout]
          simp
        rw [lastSent_append, hone, Option.some_or]
      have hother : ∀ a, a ≠ miner → lastSent a (tr ++ out) = lastSent a tr := by
        intro a ha
        have hnone : lastSent a out = none := by
          refine lastSent_eq_none fun write hwrite hminer => ha ?_
          rw [hout, List.mem_singleton] at hwrite
          rw [← hminer, hwrite]
        rw [lastSent_append, hnone, Option.none_or]
      have hbelow : ∀ a ∈ insert miner storage.miners, a ≠ miner → ∀ write,
          lastSent a (tr ++ out) = some write →
            write.job = storage.job ∧ 0 ≤ write.extraNonce ∧
              write.extraNonce < storage.extraNonce := by
        intro a ha hne write hwrite
        rw [hother a hne] at hwrite
        exact h.current a (Finset.mem_of_mem_insert_of_ne ha hne) write hwrite
      have hcounted := h.counted
      constructor
      case current =>
        intro a ha write hwrite
        by_cases hne : a = miner
        · rw [hne, hself] at hwrite
          obtain rfl := Option.some.inj hwrite
          exact ⟨rfl, hcounted, Int.lt_succ _⟩
        · obtain ⟨hjob, hlow, hhigh⟩ := hbelow a ha hne write hwrite
          exact ⟨hjob, hlow, hhigh.trans (Int.lt_succ _)⟩
      case distinct =>
        intro a ha b hb hne writeA writeB hA hB
        by_cases hane : a = miner
        · subst hane
          rw [hself] at hA
          obtain rfl := Option.some.inj hA
          have hlt := (hbelow b hb hne.symm writeB hB).2.2
          exact hlt.ne'
        · by_cases hbne : b = miner
          · subst hbne
            rw [hself] at hB
            obtain rfl := Option.some.inj hB
            exact (hbelow a ha hane writeA hA).2.2.ne
          · rw [hother a hane] at hA
            rw [hother b hbne] at hB
            exact h.distinct a (Finset.mem_of_mem_insert_of_ne ha hane) b
              (Finset.mem_of_mem_insert_of_ne hb hbne) hne writeA writeB hA hB
      case counted =>
        dsimp only
        omega

theorem Issued.acts (h : Issued storage tr) (hacts : Acts storage storage' out) :
    Issued storage' (tr ++ out) := by
  obtain ⟨active, ⟨rfl, hout⟩ | ⟨job, hjob⟩⟩ := hacts.acts
  · exact (h.setActive active).quiet hout
  · have hstate : storage' = _ := (congrArg Prod.fst hjob).symm
    rw [hstate]
    exact issued_setJob job _ tr (congrArg Prod.snd hjob).symm

end Upstream

section Handlers

variable {config : DonateStrategy.Config}

theorem acts_refl (m : ExtraNonceMapper.State) {out : List Output}
    (hout : out.filterMap Output.write? = []) : Acts m.storage m.storage out :=
  ⟨m.storage.active, Or.inl ⟨rfl, hout⟩⟩

theorem reschedule_storage (config : DonateStrategy.Config) (m : ExtraNonceMapper.State) :
    (UpstreamMapper.reschedule config m).2.1.storage = m.storage ∧
      (UpstreamMapper.reschedule config m).2.2.filterMap Output.write? = [] := by
  unfold UpstreamMapper.reschedule
  cases m.donate with
  | none => exact ⟨rfl, rfl⟩
  | some donate => exact ⟨rfl, writes_map_of_none (fun _ => rfl) _⟩

/-- A job that is set after what wrote nothing. -/
theorem acts_setJob (job : Job) (active : Bool) (out : List Output) {m m' : ExtraNonceMapper.State}
    (hm' : m'.storage = ExtraNonceStorage.setActive active m.storage)
    (hout : out.filterMap Output.write? = []) :
    Acts m.storage (UpstreamMapper.setJob ExtraNonceStorage.ops job m').1.storage
      (out ++ (UpstreamMapper.setJob ExtraNonceStorage.ops job m').2) := by
  refine ⟨active, Or.inr ⟨job, ?_⟩⟩
  rw [List.filterMap_append, hout, List.nil_append, ← hm']
  exact Prod.ext rfl (writes_map _).symm

theorem acts_onJob (job : Job) (m : ExtraNonceMapper.State) :
    Acts m.storage (UpstreamMapper.onJob ExtraNonceStorage.ops config job m).1.storage
      (UpstreamMapper.onJob ExtraNonceStorage.ops config job m).2 := by
  have hsame : m.storage = ExtraNonceStorage.setActive m.storage.active m.storage := rfl
  obtain ⟨hstorage, hout⟩ := reschedule_storage config m
  unfold UpstreamMapper.onJob
  dsimp only
  split_ifs
  · exact acts_setJob job _ _ (hstorage.trans hsame) hout
  · exact ⟨m.storage.active, Or.inl ⟨hstorage, hout⟩⟩
  · exact acts_setJob job _ [] hsame rfl

theorem acts_onDonateJob (job : Job) (m : ExtraNonceMapper.State) :
    Acts m.storage (UpstreamMapper.onDonateJob ExtraNonceStorage.ops job m).1.storage
      (UpstreamMapper.onDonateJob ExtraNonceStorage.ops job m).2 := by
  have hsame : m.storage = ExtraNonceStorage.setActive m.storage.active m.storage := rfl
  unfold UpstreamMapper.onDonateJob
  cases m.donate with
  | none => exact acts_refl m rfl
  | some donate =>
      dsimp only
      split_ifs
      · exact acts_setJob job _ [] hsame rfl
      · exact acts_setJob job true [] rfl rfl

theorem acts_onDonateClose (m : ExtraNonceMapper.State) :
    Acts m.storage (UpstreamMapper.onDonateClose ExtraNonceStorage.ops m).storage [] := by
  unfold UpstreamMapper.onDonateClose
  cases m.donate with
  | none => exact acts_refl m rfl
  | some donate =>
      dsimp only
      split_ifs
      · exact ⟨false, Or.inl ⟨rfl, rfl⟩⟩
      · exact acts_refl m rfl

theorem acts_onResultAccepted (toDonate : Bool) (seq : ℤ) (error : Option String)
    (m : ExtraNonceMapper.State) :
    Acts m.storage
      (UpstreamMapper.onResultAccepted ExtraNonceStorage.ops toDonate seq error m).1.storage
      (UpstreamMapper.onResultAccepted ExtraNonceStorage.ops toDonate seq error m).2 := by
  unfold UpstreamMapper.onResultAccepted UpstreamMapper.submitCtx
  cases m.results.find seq with
  | none => exact acts_refl m rfl
  | some ctx =>
      dsimp only
      cases ExtraNonceStorage.ops.miner ctx.minerId m.storage with
      | none => exact acts_refl m rfl
      | some miner => exact acts_refl m rfl

theorem acts_onPoolEvent (e : UpstreamMapper.PoolEvent) (m : ExtraNonceMapper.State) :
    Acts m.storage (UpstreamMapper.onPoolEvent ExtraNonceStorage.ops config e m).1.storage
      (UpstreamMapper.onPoolEvent ExtraNonceStorage.ops config e m).2 := by
  cases e with
  | active => exact ⟨true, Or.inl ⟨rfl, rfl⟩⟩
  | pause => exact ⟨false, Or.inl ⟨rfl, rfl⟩⟩
  | job job => exact acts_onJob job m
  | donateJob job => exact acts_onDonateJob job m
  | donateClose => exact acts_onDonateClose m
  | result toDonate seq error => exact acts_onResultAccepted toDonate seq error m

theorem tickDonate_storage (m : ExtraNonceMapper.State) :
    (UpstreamMapper.tickDonate m).1.storage = m.storage ∧
      (UpstreamMapper.tickDonate m).2.filterMap Output.write? = [] := by
  unfold UpstreamMapper.tickDonate
  cases m.donate with
  | none => exact ⟨rfl, rfl⟩
  | some donate => exact ⟨rfl, writes_map_of_none (fun _ => rfl) _⟩

theorem acts_resumeSaved (m : ExtraNonceMapper.State) :
    Acts m.storage (UpstreamMapper.resumeSaved ExtraNonceStorage.ops config m).1.storage
      (UpstreamMapper.resumeSaved ExtraNonceStorage.ops config m).2 := by
  have hsame : m.storage = ExtraNonceStorage.setActive m.storage.active m.storage := rfl
  obtain ⟨hstorage, hout⟩ := reschedule_storage config m
  unfold UpstreamMapper.resumeSaved
  cases m.donate with
  | none => exact acts_refl m rfl
  | some donate =>
      dsimp only
      split_ifs
      · exact acts_setJob donate.pending _ _ (hstorage.trans hsame) hout
      · exact ⟨m.storage.active, Or.inl ⟨hstorage, hout⟩⟩
      · exact acts_refl m rfl

theorem acts_tick (m : ExtraNonceMapper.State) :
    Acts m.storage (UpstreamMapper.tick ExtraNonceStorage.ops config m).1.storage
      (UpstreamMapper.tick ExtraNonceStorage.ops config m).2 := by
  obtain ⟨hstorage, hout⟩ := tickDonate_storage m
  have hacts := @acts_resumeSaved config (UpstreamMapper.tickDonate m).1
  rw [hstorage] at hacts
  obtain ⟨active, hcase⟩ := hacts.acts
  refine ⟨active, ?_⟩
  unfold UpstreamMapper.tick Handler.seq
  dsimp only
  rw [List.filterMap_append, hout, List.nil_append]
  exact hcase

theorem submit_storage (event : SubmitEvent) (answer : ℤ) (m : ExtraNonceMapper.State) :
    Acts m.storage (UpstreamMapper.submit ExtraNonceStorage.ops event answer m).1.storage
      (UpstreamMapper.submit ExtraNonceStorage.ops event answer m).2 := by
  unfold UpstreamMapper.submit
  cases UpstreamMapper.checkSubmit ExtraNonceStorage.ops event m with
  | error error => exact acts_refl m rfl
  | ok request => exact acts_refl m rfl

theorem acts_gc (m : ExtraNonceMapper.State) :
    Acts m.storage (ExtraNonceMapper.gc m).1.storage (ExtraNonceMapper.gc m).2 := by
  unfold ExtraNonceMapper.gc
  split_ifs
  · exact acts_refl m rfl
  · exact acts_refl m rfl

/-- A miner that is taken is added to the storage, and written what the storage writes. -/
theorem add_cases (miner : MinerId) (m : ExtraNonceMapper.State) : ∃ m' out,
    UpstreamMapper.add ExtraNonceStorage.ops miner m = some (m', out) ∧
      m'.storage = (ExtraNonceStorage.add miner m.storage).1 ∧
      out.filterMap Output.write? = (ExtraNonceStorage.add miner m.storage).2 := by
  refine ⟨_, _, rfl, ?_, ?_⟩
  · dsimp only [Handler.seq]
    split_ifs <;> rfl
  · dsimp only [Handler.seq]
    rw [List.filterMap_append, writes_map]
    split_ifs
    · exact List.append_nil _
    · exact List.append_nil _

theorem acts_miners {storage storage' : ExtraNonceStorage.State} {out : List Output}
    (h : Acts storage storage' out) : storage'.miners = storage.miners ∧
      ∀ write ∈ out.filterMap Output.write?, write.miner ∈ storage.miners := by
  obtain ⟨active, ⟨rfl, hout⟩ | ⟨job, hjob⟩⟩ := h.acts
  · refine ⟨rfl, fun write hwrite => ?_⟩
    rw [hout] at hwrite
    exact absurd hwrite List.not_mem_nil
  · have hstate : storage' = _ := (congrArg Prod.fst hjob).symm
    rw [hstate]
    have hwrites : out.filterMap Output.write? = _ := (congrArg Prod.snd hjob).symm
    refine ⟨rfl, fun write hwrite => ?_⟩
    rw [hwrites] at hwrite
    obtain ⟨i, hi, -⟩ := mem_setJob.mp hwrite
    exact (Finset.mem_sort (· ≤ ·)).mp (List.mem_of_getElem? hi)

end Handlers

/-! ### The connections -/

/-- Whoever has logged in here and does not donate is registered, and nobody else. -/
def Placed (c : Connection) : Prop := c.loggedIn = true ∧ c.routeId = -1

structure Routed (s : State) (tr : List Output) : Prop where
  issued : Issued s.upstream.storage tr
  registered : ∀ miner, miner ∈ s.upstream.storage.miners ↔
    ∃ c, s.connections.find miner = some c ∧ Placed c
  placed : ∀ miner c, s.connections.find miner = some c → Placed c → c.mapperId = 0
  waiting : ∀ miner c, s.connections.find miner = some c → c.loggedIn = false →
    c.mapperId = -1 ∧ c.routeId = -1
  numbered : ∀ miner c, s.connections.find miner = some c → (miner : ℕ) ≤ s.nextId
  sent : ∀ write ∈ tr.filterMap Output.write?, (write.miner : ℕ) ≤ s.nextId ∧
    ∀ c, s.connections.find write.miner = some c → c.loggedIn = true

section Connections

variable {config : DonateStrategy.Config} {target : ℕ} {s : State} {tr : List Output}
  {miner : MinerId} {c : Connection}

theorem Routed.acts (h : Routed s tr) {f : Handler ExtraNonceMapper.State Output}
    (hacts : Acts s.upstream.storage (f s.upstream).1.storage (f s.upstream).2) :
    Routed (atUpstream f s).1 (tr ++ (atUpstream f s).2) := by
  obtain ⟨hminers, hwrites⟩ := acts_miners hacts
  refine ⟨h.issued.acts hacts, ?_, h.placed, h.waiting, h.numbered, ?_⟩
  · intro miner
    change miner ∈ (f s.upstream).1.storage.miners ↔ _
    rw [hminers]
    exact h.registered miner
  · intro write hwrite
    rw [List.filterMap_append] at hwrite
    rcases List.mem_append.mp hwrite with hwrite | hwrite
    · exact h.sent write hwrite
    · obtain ⟨c, hc, hplaced⟩ := (h.registered write.miner).mp (hwrites write hwrite)
      refine ⟨h.numbered _ c hc, fun c' hc' => ?_⟩
      obtain rfl : c = c' := Option.some.inj (hc.symm.trans hc')
      exact hplaced.1

theorem find_insert_cases {connections : Table MinerId Connection} {miner other : MinerId}
    {c c' : Connection} (h : (connections.insert miner c).find other = some c') :
    other = miner ∧ c' = c ∨ other ≠ miner ∧ connections.find other = some c' := by
  by_cases hother : other = miner
  · rw [hother, Table.find_insert_self] at h
    exact Or.inl ⟨hother, (Option.some.inj h).symm⟩
  · rw [Table.find_insert_of_ne _ hother] at h
    exact Or.inr ⟨hother, h⟩

theorem Routed.connect (h : Routed s tr) :
    Routed (onDownstream config target .connect s).1
      (tr ++ (onDownstream config target .connect s).2) := by
  have hself : (s.nextId.succPNat : ℕ) = s.nextId + 1 := rfl
  have hold : ∀ miner c, s.connections.find miner = some c → miner ≠ s.nextId.succPNat := by
    rintro miner c hc rfl
    have hle := h.numbered _ c hc
    omega
  have hnil : tr ++ (onDownstream config target .connect s).2 = tr := List.append_nil tr
  rw [hnil]
  refine ⟨h.issued, ?_, ?_, ?_, ?_, ?_⟩
  · intro miner
    refine (h.registered miner).trans ⟨?_, ?_⟩
    · rintro ⟨c, hc, hplaced⟩
      exact ⟨c, (Table.find_insert_of_ne _ (hold miner c hc) _).trans hc, hplaced⟩
    · rintro ⟨c, hc, hplaced⟩
      rcases find_insert_cases hc with ⟨-, rfl⟩ | ⟨-, hc⟩
      · exact absurd hplaced.1 Bool.false_ne_true
      · exact ⟨c, hc, hplaced⟩
  · intro miner c hc hplaced
    rcases find_insert_cases hc with ⟨-, rfl⟩ | ⟨-, hc⟩
    · exact absurd hplaced.1 Bool.false_ne_true
    · exact h.placed miner c hc hplaced
  · intro miner c hc hwaiting
    rcases find_insert_cases hc with ⟨-, rfl⟩ | ⟨-, hc⟩
    · exact ⟨rfl, rfl⟩
    · exact h.waiting miner c hc hwaiting
  · intro miner c hc
    change (miner : ℕ) ≤ s.nextId + 1
    rcases find_insert_cases hc with ⟨rfl, -⟩ | ⟨-, hc⟩
    · exact hself.le
    · exact (h.numbered miner c hc).trans (Nat.le_succ _)
  · intro write hwrite
    obtain ⟨hle, hlogged⟩ := h.sent write hwrite
    refine ⟨hle.trans (Nat.le_succ _), fun c hc => ?_⟩
    rcases find_insert_cases hc with ⟨hminer, -⟩ | ⟨-, hc⟩
    · rw [hminer] at hle
      omega
    · exact hlogged c hc

/-- A miner that donates is left to the donation splitter. -/
theorem Routed.donate (h : Routed s tr) (hc : s.connections.find miner = some c)
    (hwaiting : c.loggedIn = false) {donating : Connection} (hlogged : donating.loggedIn = true)
    (hroute : donating.routeId = 0) :
    Routed { s with connections := s.connections.insert miner donating } tr := by
  have hnot : ¬ Placed donating := fun hplaced => by
    have hother := hplaced.2
    omega
  refine ⟨h.issued, ?_, ?_, ?_, ?_, ?_⟩
  · intro other
    refine (h.registered other).trans ⟨?_, ?_⟩
    · rintro ⟨c', hc', hplaced⟩
      have hne : other ≠ miner := by
        rintro rfl
        obtain rfl : c = c' := Option.some.inj (hc.symm.trans hc')
        exact Bool.false_ne_true (hwaiting.symm.trans hplaced.1)
      exact ⟨c', (Table.find_insert_of_ne _ hne _).trans hc', hplaced⟩
    · rintro ⟨c', hc', hplaced⟩
      rcases find_insert_cases hc' with ⟨-, rfl⟩ | ⟨-, hc'⟩
      · exact absurd hplaced hnot
      · exact ⟨c', hc', hplaced⟩
  · intro other c' hc' hplaced
    rcases find_insert_cases hc' with ⟨-, rfl⟩ | ⟨-, hc'⟩
    · exact absurd hplaced hnot
    · exact h.placed other c' hc' hplaced
  · intro other c' hc' hout
    rcases find_insert_cases hc' with ⟨-, rfl⟩ | ⟨-, hc'⟩
    · exact absurd (hout.symm.trans hlogged) Bool.false_ne_true
    · exact h.waiting other c' hc' hout
  · intro other c' hc'
    rcases find_insert_cases hc' with ⟨rfl, -⟩ | ⟨-, hc'⟩
    · exact h.numbered _ c hc
    · exact h.numbered other c' hc'
  · intro write hwrite
    obtain ⟨hle, hall⟩ := h.sent write hwrite
    refine ⟨hle, fun c' hc' => ?_⟩
    rcases find_insert_cases hc' with ⟨-, rfl⟩ | ⟨-, hc'⟩
    · exact hlogged
    · exact hall c' hc'

/-- A login ends with the miner at the upstream. -/
theorem Routed.login (h : Routed s tr) (hc : s.connections.find miner = some c)
    (hwaiting : c.loggedIn = false) {entering : Connection} (hlogged : entering.loggedIn = true)
    (hroute : entering.routeId = -1) : ∃ s' out,
    login config target miner 1 { s with connections := s.connections.insert miner entering } =
        some (s', out) ∧ Routed s' (tr ++ out) := by
  obtain ⟨m', out, hadd, hstorage, hout⟩ := add_cases miner s.upstream
  have hfresh : lastSent miner tr = none := by
    refine lastSent_eq_none fun write hwrite hminer => ?_
    have hall := (h.sent write hwrite).2 c (hminer ▸ hc)
    exact Bool.false_ne_true (hwaiting.symm.trans hall)
  have hminers : m'.storage.miners = insert miner s.upstream.storage.miners := by
    rw [hstorage]
    unfold ExtraNonceStorage.add
    dsimp only
    split_ifs <;> rfl
  have hwrites : ∀ write ∈ out.filterMap Output.write?, write.miner = miner := by
    intro write hwrite
    rw [hout] at hwrite
    unfold ExtraNonceStorage.add at hwrite
    dsimp only at hwrite
    split_ifs at hwrite
    · rw [List.mem_singleton.mp hwrite]
    · exact absurd hwrite List.not_mem_nil
  set connections := (s.connections.insert miner entering).modify miner
    fun c => { c with mapperId := 0 } with hconnections
  have hself : connections.find miner = some { entering with mapperId := 0 } := by
    rw [hconnections, Table.find_modify, if_pos rfl, Table.find_insert_self]
    rfl
  have hother : ∀ other, other ≠ miner → connections.find other = s.connections.find other := by
    intro other hne
    rw [hconnections, Table.find_modify, if_neg hne, Table.find_insert_of_ne _ hne]
  have hissued := h.issued.add hfresh hout
  refine ⟨{ s with
    upstream := m'
    connections }, out, ?_, ?_, ?_, ?_, ?_, ?_, ?_⟩
  · unfold ExtraNonceSplitter.login
    dsimp only
    rw [hadd]
  · change Issued m'.storage _
    rw [hstorage]
    exact hissued
  · intro other
    change other ∈ m'.storage.miners ↔ ∃ c, connections.find other = some c ∧ Placed c
    rw [hminers, Finset.mem_insert]
    by_cases hne : other = miner
    · rw [hne, hself]
      exact iff_of_true (Or.inl rfl) ⟨_, rfl, hlogged, hroute⟩
    · rw [hother other hne, or_iff_right hne]
      exact h.registered other
  · intro other c' hc' hplaced
    by_cases hne : other = miner
    · rw [hne, hself] at hc'
      exact congrArg Connection.mapperId (Option.some.inj hc').symm
    · rw [hother other hne] at hc'
      exact h.placed other c' hc' hplaced
  · intro other c' hc' hnot
    by_cases hne : other = miner
    · rw [hne, hself] at hc'
      rw [← Option.some.inj hc'] at hnot
      exact absurd (hnot.symm.trans hlogged) Bool.false_ne_true
    · rw [hother other hne] at hc'
      exact h.waiting other c' hc' hnot
  · intro other c' hc'
    by_cases hne : other = miner
    · rw [hne]
      exact h.numbered miner c hc
    · rw [hother other hne] at hc'
      exact h.numbered other c' hc'
  · intro write hwrite
    rw [List.filterMap_append] at hwrite
    by_cases hne : write.miner = miner
    · rw [hne]
      refine ⟨h.numbered miner c hc, fun c' hc' => ?_⟩
      rw [hself] at hc'
      rw [← Option.some.inj hc']
      exact hlogged
    · rcases List.mem_append.mp hwrite with hwrite | hwrite
      · rw [hother _ hne]
        exact h.sent write hwrite
      · exact absurd (hwrites write hwrite) hne

theorem Routed.close (h : Routed s tr) (hc : s.connections.find miner = some c) :
    Routed { (remove miner c s).1 with connections := s.connections.erase miner }
      (tr ++ (remove miner c s).2) := by
  have hskip : ¬ Placed c → (remove miner c s) = (s, []) := by
    intro hnot
    unfold ExtraNonceSplitter.remove
    rw [if_pos, Handler.skip]
    cases hlogged : c.loggedIn with
    | false =>
        rw [(h.waiting miner c hc hlogged).1]
        rfl
    | true =>
        have hroute : c.routeId ≠ -1 := fun hroute => hnot ⟨hlogged, hroute⟩
        simp [hroute]
  have hremoved : ∃ m : ExtraNonceMapper.State, remove miner c s = ({ s with upstream := m }, []) ∧
      Issued m.storage tr ∧
      m.storage.miners = s.upstream.storage.miners.erase miner := by
    by_cases hplaced : Placed c
    · refine ⟨UpstreamMapper.remove ExtraNonceStorage.ops miner s.upstream, ?_,
        h.issued.remove miner, rfl⟩
      unfold ExtraNonceSplitter.remove
      rw [h.placed miner c hc hplaced, hplaced.2, if_neg (by decide)]
      rfl
    · have hnot : miner ∉ s.upstream.storage.miners := by
        intro hmem
        obtain ⟨c', hc', hplaced'⟩ := (h.registered miner).mp hmem
        obtain rfl : c = c' := Option.some.inj (hc.symm.trans hc')
        exact hplaced hplaced'
      refine ⟨s.upstream, hskip hplaced, h.issued, ?_⟩
      rw [Finset.erase_eq_of_notMem hnot]
  obtain ⟨m, hremove, hissued, hminers⟩ := hremoved
  have herased : ∀ other c', (s.connections.erase miner).find other = some c' →
      other ≠ miner ∧ s.connections.find other = some c' := by
    intro other c' hc'
    have hne : other ≠ miner := by
      rintro rfl
      rw [Table.find_erase_self] at hc'
      exact absurd hc' (Option.some_ne_none c').symm
    rw [Table.find_erase_of_ne _ hne] at hc'
    exact ⟨hne, hc'⟩
  rw [hremove, List.append_nil]
  refine ⟨hissued, ?_, ?_, ?_, ?_, ?_⟩
  · intro other
    change other ∈ m.storage.miners ↔ _
    rw [hminers, Finset.mem_erase, h.registered other]
    constructor
    · rintro ⟨hne, c', hc', hplaced⟩
      exact ⟨c', (Table.find_erase_of_ne _ hne).trans hc', hplaced⟩
    · rintro ⟨c', hc', hplaced⟩
      obtain ⟨hne, hc'⟩ := herased other c' hc'
      exact ⟨hne, c', hc', hplaced⟩
  · exact fun other c' hc' => h.placed other c' (herased other c' hc').2
  · exact fun other c' hc' => h.waiting other c' (herased other c' hc').2
  · exact fun other c' hc' => h.numbered other c' (herased other c' hc').2
  · intro write hwrite
    obtain ⟨hle, hall⟩ := h.sent write hwrite
    exact ⟨hle, fun c' hc' => hall c' (herased _ c' hc').2⟩

theorem Routed.step (h : Routed s tr) (e : Event) :
    Routed (step config target e s).1 (tr ++ (step config target e s).2) := by
  have hidle : Routed s (tr ++ []) := by
    rw [List.append_nil]
    exact h
  cases e with
  | pool event => exact h.acts (acts_onPoolEvent event s.upstream)
  | gc => exact h.acts (acts_gc s.upstream)
  | tick => exact h.acts (acts_tick s.upstream)
  | downstream event =>
      cases event with
      | connect => exact @Routed.connect config target s tr h
      | login miner donateTo =>
          unfold ExtraNonceSplitter.step onDownstream
          dsimp only
          cases hc : s.connections.find miner with
          | none => exact hidle
          | some c =>
              dsimp only
              cases hlogged : c.loggedIn with
              | true =>
                  rw [if_pos rfl]
                  exact hidle
              | false =>
                  rw [if_neg Bool.false_ne_true]
                  cases donateTo with
                  | some id =>
                      dsimp only
                      rw [List.append_nil]
                      exact h.donate hc hlogged rfl rfl
                  | none =>
                      dsimp only
                      obtain ⟨s', out, hlogin, hrouted⟩ := @Routed.login config target s tr miner c
                        h hc hlogged { c with loggedIn := true }
                          rfl (h.waiting miner c hc hlogged).2
                      rw [hlogin]
                      exact hrouted
      | submit miner request answer =>
          unfold ExtraNonceSplitter.step onDownstream
          dsimp only
          cases s.connections.find miner with
          | none => exact hidle
          | some c =>
              dsimp only
              split_ifs
              · unfold ExtraNonceSplitter.submit
                split_ifs
                · exact hidle
                · exact h.acts (submit_storage _ answer s.upstream)
              · exact hidle
      | close miner =>
          unfold ExtraNonceSplitter.step onDownstream
          dsimp only
          cases hc : s.connections.find miner with
          | none => exact hidle
          | some c => exact h.close hc

theorem routed_initial (config : DonateStrategy.Config) (target : ℕ) :
    Routed (machine config target).init [] := by
  refine ⟨⟨?_, ?_, le_rfl⟩, ?_, ?_, ?_, ?_, ?_⟩
  · exact fun miner hminer => absurd hminer (Finset.notMem_empty miner)
  · exact fun a ha => absurd ha (Finset.notMem_empty a)
  · intro miner
    apply iff_of_false (Finset.notMem_empty miner)
    rintro ⟨c, hc, -⟩
    exact absurd hc (Option.some_ne_none c).symm
  · exact fun _ c hc => absurd hc (Option.some_ne_none c).symm
  · exact fun _ c hc => absurd hc (Option.some_ne_none c).symm
  · exact fun _ c hc => absurd hc (Option.some_ne_none c).symm
  · exact fun write hwrite => absurd hwrite List.not_mem_nil

theorem routed (config : DonateStrategy.Config) (target : ℕ) (es : ℕ → Event) (k : ℕ) :
    Routed ((machine config target).state es k) ((machine config target).trace es k) :=
  Machine.invariant_trace (P := Routed) (routed_initial config target) (fun _ _ e h => h.step e) k

end Connections

/-- Different numbers make different coinbases where there is room for them. -/
theorem minerTx_ne {m n : ℕ} (hm : m < 2 ^ 32) (hn : n < 2 ^ 32) (hne : m ≠ n) {tx : MinerTx}
    (hsize : 4 ≤ tx.extraNonceSize)
    (hfits : tx.extraNonceOffset + 4 ≤ tx.minerTxPrefix.length) : ∃ txM txN,
      Job.setExtraNonceInMinerTx m tx = some txM ∧ Job.setExtraNonceInMinerTx n tx = some txN ∧
        txM.minerTxPrefix ≠ txN.minerTxPrefix := by
  have hbytes : ∀ i, (littleEndianBytes 4 i).take tx.extraNonceSize = littleEndianBytes 4 i :=
    fun i => List.take_of_length_le (by rwa [length_littleEndianBytes])
  have hset : ∀ i, Job.setExtraNonceInMinerTx i tx = some { tx with
      minerTxPrefix := Hex.patch tx.minerTxPrefix tx.extraNonceOffset
        (littleEndianBytes 4 i) } := by
    intro i
    unfold Job.setExtraNonceInMinerTx
    dsimp only
    rw [hbytes, if_pos (by rwa [length_littleEndianBytes])]
  refine ⟨_, _, hset m, hset n, fun hsame => hne ?_⟩
  have hlength : (littleEndianBytes 4 m).length = (littleEndianBytes 4 n).length := by
    rw [length_littleEndianBytes, length_littleEndianBytes]
  have heq := Hex.patch_injective hlength (by rwa [length_littleEndianBytes]) hsame
  have hvalue := congrArg littleEndian heq
  rw [littleEndian_littleEndianBytes, littleEndian_littleEndianBytes] at hvalue
  omega

/-- In every run of the extra-nonce mode those who have logged in and do not donate are registered
at the one upstream. What any two of them were last sent is the current job, with different extra
nonces, which make different coinbases until there are too many of them for the field. -/
theorem extra_nonces_distinct (config : DonateStrategy.Config) (target : ℕ)
    (es : ℕ → Event) (k : ℕ) :
    let s := (machine config target).state es k
    let tr := (machine config target).trace es k
    let storage := s.upstream.storage
    (∀ miner, miner ∈ storage.miners ↔ ∃ c, s.connections.find miner = some c ∧
      c.loggedIn = true ∧ c.routeId = -1 ∧ c.mapperId = 0) ∧
    (∀ a ∈ storage.miners, ∀ write, lastSent a tr = some write →
      write.job = storage.job ∧ 0 ≤ write.extraNonce ∧ write.extraNonce < storage.extraNonce) ∧
    (∀ a ∈ storage.miners, ∀ b ∈ storage.miners, a ≠ b → ∀ writeA writeB,
      lastSent a tr = some writeA → lastSent b tr = some writeB →
      writeA.extraNonce ≠ writeB.extraNonce ∧
      (storage.extraNonce ≤ 2 ^ 32 → ∀ tx : MinerTx, 4 ≤ tx.extraNonceSize →
        tx.extraNonceOffset + 4 ≤ tx.minerTxPrefix.length → ∃ txA txB,
          Job.setExtraNonceInMinerTx writeA.extraNonce.toNat tx = some txA ∧
          Job.setExtraNonceInMinerTx writeB.extraNonce.toNat tx = some txB ∧
          txA.minerTxPrefix ≠ txB.minerTxPrefix)) := by
  intro s tr storage
  have h := routed config target es k
  refine ⟨fun miner => ?_, h.issued.current, ?_⟩
  · refine (h.registered miner).trans ⟨?_, ?_⟩
    · rintro ⟨c, hc, hplaced⟩
      exact ⟨c, hc, hplaced.1, hplaced.2, h.placed miner c hc hplaced⟩
    · rintro ⟨c, hc, hlogged, hroute, -⟩
      exact ⟨c, hc, hlogged, hroute⟩
  · intro a ha b hb hne writeA writeB hA hB
    have hdistinct := h.issued.distinct a ha b hb hne writeA writeB hA hB
    obtain ⟨-, hlowA, hhighA⟩ := h.issued.current a ha writeA hA
    obtain ⟨-, hlowB, hhighB⟩ := h.issued.current b hb writeB hB
    refine ⟨hdistinct, fun hroom tx hsize hfits => ?_⟩
    have hlastA := hhighA.trans_le hroom
    have hlastB := hhighB.trans_le hroom
    exact minerTx_ne (by omega) (by omega) (by omega) hsize hfits

end ExtraNonceSplitter

end XmrigProxy
