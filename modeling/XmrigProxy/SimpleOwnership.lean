import XmrigProxy.SimpleSplitter

/-! Every miner of the simple mode has a mapper to itself, and works on template entropy that
no other miner is sent. Mappers are stopped and deleted once, after their miner has left. -/
namespace XmrigProxy.SimpleSplitter

section Observations

def stoppedIds (tr : List Output) : List ℕ :=
  tr.filterMap fun o => match o with
    | .stopped id => some id
    | _ => none

def deletedIds (tr : List Output) : List ℕ :=
  tr.filterMap fun o => match o with
    | .deleted id => some id
    | _ => none

def isDangling : Output → Bool
  | .dangling _ => true
  | _ => false

variable {tr out : List Output}

/-- Mappers were at work; none was stopped, deleted or missed. -/
def Quiet (out : List Output) : Prop :=
  stoppedIds out = [] ∧ deletedIds out = [] ∧ ∀ o ∈ out, isDangling o = false

theorem stoppedIds_append (tr out : List Output) :
    stoppedIds (tr ++ out) = stoppedIds tr ++ stoppedIds out := List.filterMap_append

theorem deletedIds_append (tr out : List Output) :
    deletedIds (tr ++ out) = deletedIds tr ++ deletedIds out := List.filterMap_append

theorem quiet_mapper (id : ℕ) (out : List SimpleMapper.Output) : Quiet (out.map (.mapper id)) := by
  refine ⟨?_, ?_, fun o ho => ?_⟩
  · rw [stoppedIds, List.filterMap_map]
    exact List.filterMap_eq_nil_iff.mpr fun _ _ => rfl
  · rw [deletedIds, List.filterMap_map]
    exact List.filterMap_eq_nil_iff.mpr fun _ _ => rfl
  · obtain ⟨o', -, rfl⟩ := List.mem_map.mp ho
    rfl

end Observations

section Ownership

/-- The mappers agree with the tables that list them. -/
structure Registry (s : State) : Prop where
  registered : ∀ id ∈ s.upstreams, ∃ m, s.mappers.find id = some m
  indexed : ∀ id m, s.mappers.find id = some m → m.id = id ∧ id < s.sequence
  alive : ∀ id m, s.mappers.find id = some m → id ∈ s.upstreams ∨ id ∈ s.released
  idle : ∀ id ∈ s.idles, id ∈ s.upstreams ∧ ∀ m, s.mappers.find id = some m → m.miner = none
  released : ∀ id ∈ s.released, id ∉ s.upstreams ∧ ∃ m, s.mappers.find id = some m ∧ m.miner = none
  rested : ∀ id m, s.mappers.find id = some m → m.miner ≠ none → m.idleTime = 0

/-- The miners agree with the mappers that hold them. Miners that wait have logged in and have no
mapper. -/
structure Seated (waiting : MinerId → Prop) (s : State) : Prop where
  holder : ∀ (id : ℕ) m miner, s.mappers.find id = some m → m.miner = some miner →
    ∃ c, s.connections.find miner = some c ∧ c.loggedIn = true ∧ c.routeId = -1 ∧ c.mapperId = id
  owned : ∀ miner c, s.connections.find miner = some c → c.loggedIn = true → c.routeId = -1 →
    ¬ waiting miner →
      ∃ (id : ℕ) (m : SimpleMapper.State), c.mapperId = id ∧ id ∈ s.upstreams ∧
        s.mappers.find id = some m ∧ m.miner = some miner
  unplaced : ∀ miner c, s.connections.find miner = some c → c.loggedIn = false →
    c.mapperId = -1 ∧ c.routeId = -1
  numbered : ∀ miner c, s.connections.find miner = some c → (miner : ℕ) ≤ s.nextId

/-- The mappers agree with what was observed of them. -/
structure Logged (s : State) (tr : List Output) : Prop where
  releasedOnce : s.released.Nodup
  stoppedOnce : (stoppedIds tr).Nodup
  deletedOnce : (deletedIds tr).Nodup
  stopped : ∀ id, id ∈ stoppedIds tr ↔ id < s.sequence ∧ id ∉ s.upstreams
  deleted : ∀ id, id ∈ deletedIds tr ↔ id < s.sequence ∧ s.mappers.find id = none
  found : ∀ o ∈ tr, isDangling o = false

structure Owned (waiting : MinerId → Prop) (s : State) (tr : List Output) : Prop
    extends Registry s, Seated waiting s, Logged s tr

variable {waiting : MinerId → Prop} {s : State} {tr out : List Output}

theorem Owned.quiet (h : Owned waiting s tr) (hout : Quiet out) : Owned waiting s (tr ++ out) := by
  have hstopped : stoppedIds (tr ++ out) = stoppedIds tr := by
    rw [stoppedIds_append, hout.1, List.append_nil]
  have hdeleted : deletedIds (tr ++ out) = deletedIds tr := by
    rw [deletedIds_append, hout.2.1, List.append_nil]
  refine ⟨h.toRegistry, h.toSeated, h.releasedOnce, ?_, ?_, ?_, ?_, ?_⟩
  · rw [hstopped]
    exact h.stoppedOnce
  · rw [hdeleted]
    exact h.deletedOnce
  · rw [hstopped]
    exact h.stopped
  · rw [hdeleted]
    exact h.deleted
  · intro o ho
    rcases List.mem_append.mp ho with ho | ho
    · exact h.found o ho
    · exact hout.2.2 o ho

/-- The mapper still holds whom it held, and a held mapper is not idle. -/
structure SameHolder (m m' : SimpleMapper.State) : Prop where
  id : m'.id = m.id
  miner : m'.miner = m.miner
  rested : m.miner ≠ none → m'.idleTime = m.idleTime

theorem SameHolder.refl (m : SimpleMapper.State) : SameHolder m m := ⟨rfl, rfl, fun _ => rfl⟩

/-- Mappers may change as long as none appears or disappears. -/
theorem Logged.mappers (h : Logged s tr) {mappers : Table ℕ SimpleMapper.State}
    (hsame : ∀ id, mappers.find id = none ↔ s.mappers.find id = none) :
    Logged { s with mappers } tr :=
  ⟨h.releasedOnce, h.stoppedOnce, h.deletedOnce, h.stopped,
    fun id => (h.deleted id).trans (and_congr_right fun _ => (hsame id).symm), h.found⟩

/-- Mappers may change as long as each holds whom it held. -/
theorem Owned.mappers (h : Owned waiting s tr) {mappers : Table ℕ SimpleMapper.State}
    (hforth : ∀ id m, s.mappers.find id = some m → ∃ m', mappers.find id =
      some m' ∧ SameHolder m m')
    (hback : ∀ id m', mappers.find id = some m' → ∃ m, s.mappers.find id =
      some m ∧ SameHolder m m') :
    Owned waiting { s with mappers } tr := by
  refine ⟨?_, ?_, h.toLogged.mappers fun id => ?_⟩
  · constructor
    case registered =>
      intro id hid
      obtain ⟨m, hm⟩ := h.registered id hid
      obtain ⟨m', hm', -⟩ := hforth id m hm
      exact ⟨m', hm'⟩
    case indexed =>
      intro id m' hm'
      obtain ⟨m, hm, hsame⟩ := hback id m' hm'
      rw [hsame.id]
      exact h.indexed id m hm
    case alive =>
      intro id m' hm'
      obtain ⟨m, hm, -⟩ := hback id m' hm'
      exact h.alive id m hm
    case idle =>
      intro id hid
      refine ⟨(h.idle id hid).1, fun m' hm' => ?_⟩
      obtain ⟨m, hm, hsame⟩ := hback id m' hm'
      rw [hsame.miner]
      exact (h.idle id hid).2 m hm
    case released =>
      intro id hid
      obtain ⟨hnot, m, hm, hnone⟩ := h.released id hid
      obtain ⟨m', hm', hsame⟩ := hforth id m hm
      exact ⟨hnot, m', hm', hsame.miner.trans hnone⟩
    case rested =>
      intro id m' hm' hheld
      obtain ⟨m, hm, hsame⟩ := hback id m' hm'
      rw [hsame.miner] at hheld
      rw [hsame.rested hheld]
      exact h.rested id m hm hheld
  · refine ⟨fun id m' miner hm' hheld => ?_, fun miner c hc hlogged hroute hwait => ?_, h.unplaced,
      h.numbered⟩
    · obtain ⟨m, hm, hsame⟩ := hback id m' hm'
      exact h.holder id m miner hm (hsame.miner ▸ hheld)
    · obtain ⟨id, m, hid, hup, hm, hheld⟩ := h.owned miner c hc hlogged hroute hwait
      obtain ⟨m', hm', hsame⟩ := hforth id m hm
      exact ⟨id, m', hid, hup, hm', hsame.miner.trans hheld⟩
  · constructor
    · intro hnone
      cases hm : s.mappers.find id with
      | none => rfl
      | some m =>
          obtain ⟨m', hm', -⟩ := hforth id m hm
          rw [hnone] at hm'
          cases hm'
    · intro hnone
      cases hm' : mappers.find id with
      | none => rfl
      | some m' =>
          obtain ⟨m, hm, -⟩ := hback id m' hm'
          rw [hnone] at hm
          cases hm

/-- What is found after one mapper was replaced. -/
theorem find_replaced {mappers : Table ℕ SimpleMapper.State} {id id' : ℕ}
    {m m' : SimpleMapper.State} (h : (mappers.insert id m).find id' = some m') :
    (id' = id ∧ m' = m) ∨ (id' ≠ id ∧ mappers.find id' = some m') := by
  rw [Table.find_insert] at h
  split at h
  · next heq => exact Or.inl ⟨heq, (Option.some.inj h).symm⟩
  · next hne => exact Or.inr ⟨hne, h⟩

theorem Logged.replace (h : Logged s tr) {id : ℕ} {m : SimpleMapper.State}
    (hm : s.mappers.find id = some m) (m' : SimpleMapper.State) :
    Logged { s with mappers := s.mappers.insert id m' } tr := by
  refine h.mappers fun id' => ?_
  rw [Table.find_insert]
  split
  · next heq => simp [heq, hm]
  · rfl

/-- One mapper may work as long as it holds whom it held. -/
theorem Owned.atMapper (h : Owned waiting s tr) {id : ℕ} {m : SimpleMapper.State}
    (hm : s.mappers.find id = some m) {f : Handler SimpleMapper.State SimpleMapper.Output}
    (hf : SameHolder m (f m).1) :
    Owned waiting (atMapper id f s).1 (tr ++ (atMapper id f s).2) := by
  unfold SimpleSplitter.atMapper
  rw [hm]
  refine Owned.quiet (h.mappers (fun id' m₀ hm₀ => ?_) fun id' m₀ hm₀ => ?_) (quiet_mapper id _)
  · by_cases hid : id' = id
    · subst hid
      obtain rfl := Option.some.inj (hm.symm.trans hm₀)
      exact ⟨_, Table.find_insert_self _ _ _, hf⟩
    · exact ⟨m₀, by rw [Table.find_insert_of_ne _ hid, hm₀], SameHolder.refl m₀⟩
  · rcases find_replaced hm₀ with ⟨rfl, rfl⟩ | ⟨-, hm₀⟩
    · exact ⟨m, hm, hf⟩
    · exact ⟨m₀, hm₀, SameHolder.refl m₀⟩

theorem sameHolder_onPoolEvent (now : ℕ) (e : SimpleMapper.PoolEvent) (m : SimpleMapper.State) :
    SameHolder m (SimpleMapper.onPoolEvent now e m).1 := by
  cases e with
  | active strategy =>
      unfold SimpleMapper.onPoolEvent SimpleMapper.onActive
      dsimp only
      split <;> exact ⟨rfl, rfl, fun _ => rfl⟩
  | pause strategy =>
      unfold SimpleMapper.onPoolEvent SimpleMapper.onPause
      dsimp only
      split <;> exact ⟨rfl, rfl, fun _ => rfl⟩
  | job strategy job =>
      unfold SimpleMapper.onPoolEvent SimpleMapper.setJob
      dsimp only
      split <;> exact ⟨rfl, rfl, fun _ => rfl⟩
  | result seq requestId ambiguous error => exact ⟨rfl, rfl, fun _ => rfl⟩

theorem sameHolder_tick (m : SimpleMapper.State) : SameHolder m (SimpleMapper.tick m) := by
  unfold SimpleMapper.tick
  split
  · next hnone => exact ⟨rfl, rfl, fun hheld => absurd (Option.isNone_iff_eq_none.mp hnone) hheld⟩
  · exact SameHolder.refl m

theorem sameHolder_submit (now : ℕ) (event : SubmitEvent) (answer : ℤ) (m : SimpleMapper.State) :
    SameHolder m (SimpleMapper.submit now event answer m).1 := by
  unfold SimpleMapper.submit
  split <;> exact SameHolder.refl m

end Ownership

section Logins

variable {s : State} {tr : List Output} {miner : MinerId} {c : Connection} {id : ℕ}
  {m m' : SimpleMapper.State}

/-- Only a logged-in miner with a mapper is held. -/
theorem Seated.not_held {waiting : MinerId → Prop} (h : Seated waiting s)
    (hc : s.connections.find miner = some c) (hplace : c.mapperId = -1)
    (hm : s.mappers.find id = some m) : m.miner ≠ some miner := by
  intro hheld
  obtain ⟨c', hc', -, -, hid⟩ := h.holder id m miner hm hheld
  obtain rfl := Option.some.inj (hc.symm.trans hc')
  omega

/-- The tables list a mapper that was replaced by one with the same id, unless it is idle. -/
theorem Registry.replace (h : Registry s) (hid : id ∈ s.upstreams) (hm : s.mappers.find id = some m)
    (hsame : m'.id = m.id) (hidle : id ∈ s.idles → m'.miner = none)
    (hrested : m'.miner ≠ none → m'.idleTime = 0) :
    Registry { s with mappers := s.mappers.insert id m' } := by
  have hkeep : ∀ {id₀ : ℕ} {m₀}, id₀ ≠ id → s.mappers.find id₀ = some m₀ →
      (s.mappers.insert id m').find id₀ = some m₀ := by
    intro id₀ m₀ heq hm₀
    rw [Table.find_insert_of_ne _ heq, hm₀]
  constructor
  case registered =>
    intro id₀ hid₀
    by_cases heq : id₀ = id
    · subst heq
      exact ⟨m', Table.find_insert_self _ _ _⟩
    · obtain ⟨m₀, hm₀⟩ := h.registered id₀ hid₀
      exact ⟨m₀, hkeep heq hm₀⟩
  case indexed =>
    intro id₀ m₀ hm₀
    rcases find_replaced hm₀ with ⟨rfl, rfl⟩ | ⟨-, hm₀⟩
    · rw [hsame]
      exact h.indexed id₀ m hm
    · exact h.indexed id₀ m₀ hm₀
  case alive =>
    intro id₀ m₀ hm₀
    rcases find_replaced hm₀ with ⟨rfl, rfl⟩ | ⟨-, hm₀⟩
    · exact Or.inl hid
    · exact h.alive id₀ m₀ hm₀
  case idle =>
    intro id₀ hid₀
    refine ⟨(h.idle id₀ hid₀).1, fun m₀ hm₀ => ?_⟩
    rcases find_replaced hm₀ with ⟨rfl, rfl⟩ | ⟨-, hm₀⟩
    · exact hidle hid₀
    · exact (h.idle id₀ hid₀).2 m₀ hm₀
  case released =>
    intro id₀ hid₀
    obtain ⟨hnot, m₀, hm₀, hnone⟩ := h.released id₀ hid₀
    refine ⟨hnot, m₀, hkeep ?_ hm₀, hnone⟩
    rintro rfl
    exact hnot hid
  case rested =>
    intro id₀ m₀ hm₀ hheld
    rcases find_replaced hm₀ with ⟨rfl, rfl⟩ | ⟨-, hm₀⟩
    · exact hrested hheld
    · exact h.rested id₀ m₀ hm₀ hheld

/-- A waiting miner is told of the mapper that holds it now. -/
theorem Seated.place (h : Seated (· = miner) s) (hc : s.connections.find miner = some c)
    (hlogged : c.loggedIn = true) (hplace : c.mapperId = -1) (hroute : c.routeId = -1)
    (hid : id ∈ s.upstreams) (hm : s.mappers.find id = some m) (hfree : m.miner = none)
    (hheld : m'.miner = some miner) :
    Seated (fun _ => False)
      { s with
        connections := s.connections.modify miner fun c => { c with mapperId := id }
        mappers := s.mappers.insert id m' } := by
  have hself : (s.connections.modify miner fun c => { c with mapperId := id }).find miner =
      some { c with mapperId := id } := by
    simp [Table.find_modify, hc]
  have hother : ∀ other, other ≠ miner →
      (s.connections.modify miner fun c => { c with mapperId := id }).find other =
        s.connections.find other := by
    intro other hne
    simp [Table.find_modify, hne]
  constructor
  case holder =>
    intro id₀ m₀ other hm₀ hheld₀
    rcases find_replaced hm₀ with ⟨rfl, rfl⟩ | ⟨-, hm₁⟩
    · obtain rfl : miner = other := Option.some.inj (hheld.symm.trans hheld₀)
      exact ⟨_, hself, hlogged, hroute, rfl⟩
    · have hne : other ≠ miner := by
        rintro rfl
        exact h.not_held hc hplace hm₁ hheld₀
      obtain ⟨c', hc', hrest⟩ := h.holder id₀ m₀ other hm₁ hheld₀
      exact ⟨c', (hother other hne).trans hc', hrest⟩
  case owned =>
    intro other c' hc' hlogged' hroute' _
    by_cases hne : other = miner
    · subst hne
      rw [hself] at hc'
      obtain rfl := Option.some.inj hc'
      exact ⟨id, m', rfl, hid, Table.find_insert_self _ _ _, hheld⟩
    · rw [hother other hne] at hc'
      obtain ⟨id₀, m₀, hid₀, hup, hm₀, hheld₀⟩ := h.owned other c' hc' hlogged' hroute' hne
      have heq : id₀ ≠ id := by
        rintro rfl
        obtain rfl := Option.some.inj (hm.symm.trans hm₀)
        rw [hfree] at hheld₀
        cases hheld₀
      exact ⟨id₀, m₀, hid₀, hup, by rw [Table.find_insert_of_ne _ heq, hm₀], hheld₀⟩
  case unplaced =>
    intro other c' hc' hlogged'
    by_cases hne : other = miner
    · subst hne
      rw [hself] at hc'
      obtain rfl := Option.some.inj hc'
      exact absurd hlogged (by simpa using hlogged')
    · rw [hother other hne] at hc'
      exact h.unplaced other c' hc' hlogged'
  case numbered =>
    intro other c' hc'
    by_cases hne : other = miner
    · subst hne
      exact h.numbered other c hc
    · rw [hother other hne] at hc'
      exact h.numbered other c' hc'

/-- A free mapper takes the waiting miner. -/
theorem Owned.place (h : Owned (· = miner) s tr) (hc : s.connections.find miner = some c)
    (hlogged : c.loggedIn = true) (hplace : c.mapperId = -1) (hroute : c.routeId = -1)
    (hid : id ∈ s.upstreams) (hidle : id ∉ s.idles) (hm : s.mappers.find id = some m)
    (hfree : m.miner = none) (hm' : m'.id = m.id ∧ m'.miner = some miner ∧ m'.idleTime = 0) :
    Owned (fun _ => False)
      { s with
        connections := s.connections.modify miner fun c => { c with mapperId := id }
        mappers := s.mappers.insert id m' } tr := by
  obtain ⟨hsame, hheld, hrested⟩ := hm'
  have hregistry :=
    h.toRegistry.replace hid hm hsame (fun hmem => absurd hmem hidle) fun _ => hrested
  have hlog := h.toLogged.replace hm m'
  exact ⟨⟨hregistry.registered, hregistry.indexed, hregistry.alive, hregistry.idle,
      hregistry.released, hregistry.rested⟩,
    h.toSeated.place hc hlogged hplace hroute hid hm hfree hheld,
    ⟨hlog.releasedOnce, hlog.stoppedOnce, hlog.deletedOnce, hlog.stopped, hlog.deleted, hlog.found⟩⟩

theorem Owned.removeIdle {waiting : MinerId → Prop} (h : Owned waiting s tr) (id : ℕ) :
    Owned waiting (removeIdle id s) tr :=
  ⟨⟨h.registered, h.indexed, h.alive, fun id₀ hid₀ => h.idle id₀ (Finset.mem_of_mem_erase hid₀),
    h.released, h.rested⟩, ⟨h.holder, h.owned, h.unplaced, h.numbered⟩,
    ⟨h.releasedOnce, h.stoppedOnce, h.deletedOnce, h.stopped, h.deleted, h.found⟩⟩

/-- The splitter with a new mapper. -/
def withMapper (s : State) : State :=
  { s with
    sequence := s.sequence + 1
    mappers := s.mappers.insert s.sequence { id := s.sequence }
    upstreams := insert s.sequence s.upstreams }

theorem Registry.fresh (h : Registry s) : s.mappers.find s.sequence = none := by
  cases hm : s.mappers.find s.sequence with
  | none => rfl
  | some m => exact absurd (h.indexed _ m hm).2 (lt_irrefl _)

/-- The mappers that were there are still there. -/
theorem Registry.find_withMapper (h : Registry s) (hm : s.mappers.find id = some m) :
    (withMapper s).mappers.find id = some m := by
  have hne : id ≠ s.sequence := (h.indexed id m hm).2.ne
  exact (Table.find_insert_of_ne _ hne _).trans hm

theorem Registry.create (h : Registry s) : Registry (withMapper s) := by
  constructor
  case registered =>
    intro id₀ hid₀
    rcases Finset.mem_insert.mp hid₀ with rfl | hid₀
    · exact ⟨_, Table.find_insert_self _ _ _⟩
    · obtain ⟨m, hm⟩ := h.registered id₀ hid₀
      exact ⟨m, h.find_withMapper hm⟩
  case indexed =>
    intro id₀ m₀ hm₀
    rcases find_replaced hm₀ with ⟨rfl, rfl⟩ | ⟨-, hm₀⟩
    · exact ⟨rfl, Nat.lt_succ_self _⟩
    · have := h.indexed id₀ m₀ hm₀
      exact ⟨this.1, Nat.lt_succ_of_lt this.2⟩
  case alive =>
    intro id₀ m₀ hm₀
    rcases find_replaced hm₀ with ⟨rfl, -⟩ | ⟨-, hm₀⟩
    · exact Or.inl (Finset.mem_insert_self _ _)
    · exact (h.alive id₀ m₀ hm₀).imp_left Finset.mem_insert_of_mem
  case idle =>
    intro id₀ hid₀
    refine ⟨Finset.mem_insert_of_mem (h.idle id₀ hid₀).1, fun m₀ hm₀ => ?_⟩
    rcases find_replaced hm₀ with ⟨rfl, rfl⟩ | ⟨-, hm₀⟩
    · rfl
    · exact (h.idle id₀ hid₀).2 m₀ hm₀
  case released =>
    intro id₀ hid₀
    obtain ⟨hnot, m₀, hm₀, hnone⟩ := h.released id₀ hid₀
    refine ⟨fun hmem => ?_, m₀, h.find_withMapper hm₀, hnone⟩
    rcases Finset.mem_insert.mp hmem with rfl | hmem
    · rw [h.fresh] at hm₀
      cases hm₀
    · exact hnot hmem
  case rested =>
    intro id₀ m₀ hm₀ hheld
    rcases find_replaced hm₀ with ⟨rfl, rfl⟩ | ⟨-, hm₀⟩
    · rfl
    · exact h.rested id₀ m₀ hm₀ hheld

theorem Logged.create (h : Logged s tr) : Logged (withMapper s) tr := by
  refine ⟨h.releasedOnce, h.stoppedOnce, h.deletedOnce, fun id₀ => ?_, fun id₀ => ?_, h.found⟩
  · rw [h.stopped id₀]
    change _ ↔ id₀ < s.sequence + 1 ∧ id₀ ∉ insert s.sequence s.upstreams
    rw [Finset.mem_insert, not_or]
    constructor
    · rintro ⟨hlt, hnot⟩
      exact ⟨by omega, by omega, hnot⟩
    · rintro ⟨hlt, hne, hnot⟩
      exact ⟨by omega, hnot⟩
  · rw [h.deleted id₀]
    change _ ↔ id₀ < s.sequence + 1 ∧
      (s.mappers.insert s.sequence { id := s.sequence }).find id₀ = none
    by_cases heq : id₀ = s.sequence
    · subst heq
      simp
    · rw [Table.find_insert_of_ne _ heq]
      refine and_congr_left fun _ => ?_
      omega

/-- A new mapper gets an id that no mapper ever had. -/
theorem Owned.create {waiting : MinerId → Prop} (h : Owned waiting s tr) :
    Owned waiting (withMapper s) tr := by
  refine ⟨h.toRegistry.create, ⟨fun id₀ m₀ other hm₀ hheld => ?_,
    fun other c' hc' hlogged hroute hwait => ?_, h.unplaced, h.numbered⟩, h.toLogged.create⟩
  · rcases find_replaced hm₀ with ⟨rfl, rfl⟩ | ⟨-, hm₀⟩
    · cases hheld
    · exact h.holder id₀ m₀ other hm₀ hheld
  · obtain ⟨id₀, m₀, hid₀, hmem, hm₀, hheld⟩ := h.owned other c' hc' hlogged hroute hwait
    exact ⟨id₀, m₀, hid₀, Finset.mem_insert_of_mem hmem, h.find_withMapper hm₀, hheld⟩

theorem reusable_spec (h : reusable s = some id) :
    id ∈ s.idles ∧ ∃ m, s.mappers.find id = some m ∧ SimpleMapper.isReusable m = true := by
  have hmem := List.mem_of_find?_eq_some h
  have hp := List.find?_some h
  refine ⟨(Finset.mem_sort _).mp hmem, ?_⟩
  cases hm : s.mappers.find id with
  | none => simp [hm] at hp
  | some m => exact ⟨m, rfl, by simpa [hm] using hp⟩

/-- A login ends with the miner at a mapper of its own. -/
theorem Owned.login (h : Owned (· = miner) s tr) (hc : s.connections.find miner = some c)
    (hlogged : c.loggedIn = true) (hplace : c.mapperId = -1) (hroute : c.routeId = -1) :
    Owned (fun _ => False) (login miner s).1 (tr ++ (login miner s).2) := by
  unfold SimpleSplitter.login
  cases hreuse : reusable s with
  | some id =>
      obtain ⟨hidle, m, hm, hreusable⟩ := reusable_spec hreuse
      have hfree : m.miner = none := (h.idle id hidle).2 m hm
      have hplaced := (h.removeIdle id).place hc hlogged hplace hroute (h.idle id hidle).1
        (Finset.notMem_erase id _) hm hfree
        (⟨rfl, rfl, rfl⟩ : (SimpleMapper.reuse miner m).1.id = m.id ∧
          (SimpleMapper.reuse miner m).1.miner = some miner ∧
          (SimpleMapper.reuse miner m).1.idleTime = 0)
      have hfind : (assign miner id (SimpleSplitter.removeIdle id s)).mappers.find id = some m := hm
      dsimp only
      unfold SimpleSplitter.atMapper
      rw [hfind]
      exact hplaced.quiet (quiet_mapper id _)
  | none =>
      have hidle : s.sequence ∉ s.idles := by
        intro hmem
        obtain ⟨m, hm⟩ := h.registered _ (h.idle _ hmem).1
        exact absurd (h.indexed _ m hm).2 (lt_irrefl _)
      have hplaced := h.create.place hc hlogged hplace hroute (Finset.mem_insert_self _ _) hidle
        (Table.find_insert_self _ _ _) rfl
        (⟨rfl, rfl, rfl⟩ : (SimpleMapper.add miner { id := s.sequence }).1.id = s.sequence ∧
          (SimpleMapper.add miner { id := s.sequence }).1.miner = some miner ∧
          (SimpleMapper.add miner { id := s.sequence }).1.idleTime = 0)
      dsimp only
      unfold SimpleSplitter.atMapper
      have hfind : (assign miner s.sequence (withMapper s)).mappers.find s.sequence =
          some { id := s.sequence } := Table.find_insert_self _ _ _
      unfold withMapper at hfind
      rw [hfind]
      exact hplaced.quiet (quiet_mapper _ _)

end Logins

section Departures

variable {s : State} {tr : List Output} {miner : MinerId} {id : ℕ} {ids : List ℕ}
  {m : SimpleMapper.State}

theorem stop_spec (hm : s.mappers.find id = some m) :
    stop id s =
      ({ s with upstreams := s.upstreams.erase id, idles := s.idles.erase id },
        .stopped id :: (SimpleMapper.stop m).2.map (.mapper id)) := by
  have hfind : (removeUpstream id (removeIdle id s)).mappers.find id = some m := hm
  have hsame : (removeUpstream id (removeIdle id s)).mappers.insert id (SimpleMapper.stop m).1 =
      s.mappers := Table.insert_eq_self _ hm
  unfold stop Handler.seq atMapper
  dsimp only
  rw [hfind]
  dsimp only
  rw [hsame]
  rfl

theorem stop_observed (id : ℕ) (m : SimpleMapper.State) :
    stoppedIds (.stopped id :: (SimpleMapper.stop m).2.map (.mapper id)) = [id] ∧
      deletedIds (.stopped id :: (SimpleMapper.stop m).2.map (.mapper id)) = [] ∧
      ∀ o ∈ Output.stopped id :: (SimpleMapper.stop m).2.map (.mapper id),
        isDangling o = false := by
  obtain ⟨hstopped, hdeleted, hfound⟩ := quiet_mapper id (SimpleMapper.stop m).2
  refine ⟨?_, ?_, fun o ho => ?_⟩
  · change id :: stoppedIds ((SimpleMapper.stop m).2.map (.mapper id)) = [id]
    rw [hstopped]
  · exact hdeleted
  · rcases List.mem_cons.mp ho with rfl | ho
    · rfl
    · exact hfound o ho

/-- Stopping mappers only takes them out of the tables. -/
theorem forEach_stop (hids : ∀ id ∈ ids, ∃ m, s.mappers.find id = some m) :
    ∃ out, Handler.forEach stop ids s =
        ({ s with upstreams := s.upstreams \ ids.toFinset, idles := s.idles \ ids.toFinset }, out) ∧
      stoppedIds out = ids ∧ deletedIds out = [] ∧ ∀ o ∈ out, isDangling o = false := by
  induction ids generalizing s with
  | nil =>
      refine ⟨[], ?_, rfl, rfl, fun o ho => ?_⟩
      · simp [Handler.forEach, Handler.skip]
      · cases ho
  | cons id rest ih =>
      obtain ⟨m, hm⟩ := hids id List.mem_cons_self
      obtain ⟨out, hrest, hstopped, hdeleted, hfound⟩ := @ih
        { s with upstreams := s.upstreams.erase id, idles := s.idles.erase id }
        (fun id' hid' => hids id' (List.mem_cons_of_mem _ hid'))
      obtain ⟨hfirst, hkept, hthere⟩ := stop_observed id m
      refine ⟨(.stopped id :: (SimpleMapper.stop m).2.map (.mapper id)) ++ out, ?_, ?_, ?_,
        fun o ho => ?_⟩
      · unfold Handler.forEach Handler.seq
        rw [stop_spec hm, hrest]
        have herase : ∀ t : Finset ℕ, t.erase id \ rest.toFinset = t \ (id :: rest).toFinset := by
          intro t
          ext x
          simp
          tauto
        simp only [herase]
      · rw [stoppedIds_append, hstopped, hfirst]
        rfl
      · rw [deletedIds_append, hdeleted, hkept]
        rfl
      · rcases List.mem_append.mp ho with ho | ho
        · exact hthere o ho
        · exact hfound o ho

theorem forEach_delete (ids : List ℕ) (s : State) :
    Handler.forEach delete ids s =
      ({ s with mappers := ids.foldl Table.erase s.mappers }, ids.map .deleted) := by
  induction ids generalizing s with
  | nil => rfl
  | cons id rest ih =>
      unfold Handler.forEach Handler.seq
      rw [ih]
      rfl

theorem find_foldl_erase (ids : List ℕ) (mappers : Table ℕ SimpleMapper.State) (id : ℕ) :
    (ids.foldl Table.erase mappers).find id = if id ∈ ids then none else mappers.find id := by
  induction ids generalizing mappers with
  | nil => simp
  | cons id' rest ih =>
      rw [List.foldl_cons, ih, Table.find_erase]
      by_cases hrest : id ∈ rest
      · simp [hrest]
      · by_cases heq : id = id'
        · simp [heq]
        · simp [hrest, heq]

/-- Registered mappers without miners are stopped, and released until the next tick. -/
theorem Owned.retire {waiting : MinerId → Prop} {out : List Output} (h : Owned waiting s tr)
    (hids : ids.Nodup) (hfree : ∀ id ∈ ids, id ∈ s.upstreams ∧
      ∃ m, s.mappers.find id = some m ∧ m.miner = none)
    (hstopped : stoppedIds out = ids) (hdeleted : deletedIds out = [])
    (hfound : ∀ o ∈ out, isDangling o = false) :
    Owned waiting
      { s with
        upstreams := s.upstreams \ ids.toFinset
        idles := s.idles \ ids.toFinset
        released := s.released ++ ids } (tr ++ out) := by
  refine ⟨?_, ?_, ?_⟩ <;> constructor
  case registered => exact fun id hid => h.registered id (Finset.mem_sdiff.mp hid).1
  case indexed => exact h.indexed
  case alive =>
    intro id m hm
    change id ∈ s.upstreams \ ids.toFinset ∨ id ∈ s.released ++ ids
    by_cases hid : id ∈ ids
    · exact Or.inr (List.mem_append_right _ hid)
    · rcases h.alive id m hm with hup | hreleased
      · exact Or.inl (Finset.mem_sdiff.mpr ⟨hup, by simpa using hid⟩)
      · exact Or.inr (List.mem_append_left _ hreleased)
  case idle =>
    intro id hid
    obtain ⟨hid, hnot⟩ := Finset.mem_sdiff.mp hid
    exact ⟨Finset.mem_sdiff.mpr ⟨(h.idle id hid).1, hnot⟩, (h.idle id hid).2⟩
  case released =>
    intro id hid
    rcases List.mem_append.mp hid with hid | hid
    · obtain ⟨hnot, hfree⟩ := h.released id hid
      exact ⟨fun hmem => hnot (Finset.mem_sdiff.mp hmem).1, hfree⟩
    · exact ⟨fun hmem => (Finset.mem_sdiff.mp hmem).2 (by simpa using hid), (hfree id hid).2⟩
  case rested => exact h.rested
  case holder => exact h.holder
  case owned =>
    intro miner c hc hlogged hroute hwait
    obtain ⟨id, m, hid, hup, hm, hheld⟩ := h.owned miner c hc hlogged hroute hwait
    refine ⟨id, m, hid, Finset.mem_sdiff.mpr ⟨hup, fun hmem => ?_⟩, hm, hheld⟩
    obtain ⟨-, m', hm', hnone⟩ := hfree id (by simpa using hmem)
    obtain rfl := Option.some.inj (hm.symm.trans hm')
    rw [hnone] at hheld
    cases hheld
  case unplaced => exact h.unplaced
  case numbered => exact h.numbered
  case releasedOnce =>
    refine List.Nodup.append h.releasedOnce hids fun id hreleased hid => ?_
    exact (h.released id hreleased).1 (hfree id hid).1
  case stoppedOnce =>
    rw [stoppedIds_append, hstopped]
    refine List.Nodup.append h.stoppedOnce hids fun id hid hmem => ?_
    exact ((h.stopped id).mp hid).2 (hfree id hmem).1
  case deletedOnce =>
    rw [deletedIds_append, hdeleted, List.append_nil]
    exact h.deletedOnce
  case stopped =>
    intro id
    rw [stoppedIds_append, hstopped, List.mem_append, h.stopped id]
    change _ ↔ id < s.sequence ∧ id ∉ s.upstreams \ ids.toFinset
    rw [Finset.mem_sdiff, List.mem_toFinset]
    constructor
    · rintro (⟨hlt, hnot⟩ | hid)
      · exact ⟨hlt, fun hmem => hnot hmem.1⟩
      · obtain ⟨hup, m, hm, -⟩ := hfree id hid
        exact ⟨(h.indexed id m hm).2, fun hmem => hmem.2 hid⟩
    · rintro ⟨hlt, hnot⟩
      by_cases hup : id ∈ s.upstreams
      · exact Or.inr (by_contra fun hid => hnot ⟨hup, hid⟩)
      · exact Or.inl ⟨hlt, hup⟩
  case deleted =>
    intro id
    rw [deletedIds_append, hdeleted, List.append_nil]
    exact h.deleted id
  case found =>
    intro o ho
    rcases List.mem_append.mp ho with ho | ho
    · exact h.found o ho
    · exact hfound o ho

/-- The released mappers are deleted. -/
theorem Owned.collect {waiting : MinerId → Prop} (h : Owned waiting s tr) :
    Owned waiting { s with mappers := s.released.foldl Table.erase s.mappers, released := [] }
      (tr ++ s.released.map .deleted) := by
  have hat : ∀ {id : ℕ} {m}, (s.released.foldl Table.erase s.mappers).find id = some m →
      id ∉ s.released ∧ s.mappers.find id = some m := by
    intro id m hm
    rw [find_foldl_erase] at hm
    split at hm
    · cases hm
    · next hnot => exact ⟨hnot, hm⟩
  have hkeep : ∀ {id : ℕ} {m}, id ∈ s.upstreams → s.mappers.find id = some m →
      (s.released.foldl Table.erase s.mappers).find id = some m := by
    intro id m hup hm
    rw [find_foldl_erase, if_neg fun hreleased => (h.released id hreleased).1 hup, hm]
  have hstopped : stoppedIds (s.released.map .deleted) = [] := by
    rw [stoppedIds, List.filterMap_map]
    exact List.filterMap_eq_nil_iff.mpr fun _ _ => rfl
  have hdeleted : deletedIds (s.released.map .deleted) = s.released := by
    rw [deletedIds, List.filterMap_map]
    exact List.filterMap_some
  refine ⟨?_, ?_, ?_⟩ <;> constructor
  case registered =>
    intro id hid
    obtain ⟨m, hm⟩ := h.registered id hid
    exact ⟨m, hkeep hid hm⟩
  case indexed => exact fun id m hm => h.indexed id m (hat hm).2
  case alive =>
    intro id m hm
    obtain ⟨hnot, hm⟩ := hat hm
    exact Or.inl ((h.alive id m hm).resolve_right hnot)
  case idle => exact fun id hid => ⟨(h.idle id hid).1, fun m hm => (h.idle id hid).2 m (hat hm).2⟩
  case released =>
    intro id hid
    cases hid
  case rested => exact fun id m hm => h.rested id m (hat hm).2
  case holder => exact fun id m miner hm => h.holder id m miner (hat hm).2
  case owned =>
    intro miner c hc hlogged hroute hwait
    obtain ⟨id, m, hid, hup, hm, hheld⟩ := h.owned miner c hc hlogged hroute hwait
    exact ⟨id, m, hid, hup, hkeep hup hm, hheld⟩
  case unplaced => exact h.unplaced
  case numbered => exact h.numbered
  case releasedOnce => exact List.nodup_nil
  case stoppedOnce =>
    rw [stoppedIds_append, hstopped, List.append_nil]
    exact h.stoppedOnce
  case deletedOnce =>
    rw [deletedIds_append, hdeleted]
    refine List.Nodup.append h.deletedOnce h.releasedOnce fun id hid hreleased => ?_
    obtain ⟨-, m, hm, -⟩ := h.released id hreleased
    rw [((h.deleted id).mp hid).2] at hm
    cases hm
  case stopped =>
    intro id
    rw [stoppedIds_append, hstopped, List.append_nil]
    exact h.stopped id
  case deleted =>
    intro id
    rw [deletedIds_append, hdeleted, List.mem_append, h.deleted id]
    change _ ↔ id < s.sequence ∧ (s.released.foldl Table.erase s.mappers).find id = none
    rw [find_foldl_erase]
    by_cases hreleased : id ∈ s.released
    · obtain ⟨-, m, hm, -⟩ := h.released id hreleased
      simp [hreleased, (h.indexed id m hm).2]
    · simp [hreleased]
  case found =>
    intro o ho
    rcases List.mem_append.mp ho with ho | ho
    · exact h.found o ho
    · obtain ⟨id, -, rfl⟩ := List.mem_map.mp ho
      rfl

/-- A connection that no mapper holds may go. -/
theorem Owned.disconnect {waiting : MinerId → Prop} (h : Owned waiting s tr)
    (hfree : ∀ (id : ℕ) m, s.mappers.find id = some m → m.miner ≠ some miner) :
    Owned waiting { s with connections := s.connections.erase miner } tr := by
  have hat : ∀ {other : MinerId} {c}, (s.connections.erase miner).find other = some c →
      s.connections.find other = some c := by
    intro other c hc
    rw [Table.find_erase] at hc
    split at hc
    · cases hc
    · exact hc
  refine ⟨⟨h.registered, h.indexed, h.alive, h.idle, h.released, h.rested⟩,
    ⟨?_, fun other c hc => h.owned other c (hat hc), fun other c hc => h.unplaced other c (hat hc),
      fun other c hc => h.numbered other c (hat hc)⟩,
    ⟨h.releasedOnce, h.stoppedOnce, h.deletedOnce, h.stopped, h.deleted, h.found⟩⟩
  intro id m other hm hheld
  obtain ⟨c, hc, hrest⟩ := h.holder id m other hm hheld
  have hne : other ≠ miner := fun heq => hfree id m hm (heq ▸ hheld)
  exact ⟨c, by rw [Table.find_erase_of_ne _ hne, hc], hrest⟩

/-- The miner of a mapper disconnects. -/
theorem Seated.vacate {waiting : MinerId → Prop} (h : Seated waiting s)
    (hm : s.mappers.find id = some m) (hheld : m.miner = some miner) :
    Seated waiting
      { s with
        mappers := s.mappers.insert id (SimpleMapper.remove m)
        connections := s.connections.erase miner } := by
  obtain ⟨c, hc, -, -, hplace⟩ := h.holder id m miner hm hheld
  have hthere : ∀ {other : MinerId} {c}, (s.connections.erase miner).find other = some c →
      other ≠ miner ∧ s.connections.find other = some c := by
    intro other c hc
    rw [Table.find_erase] at hc
    split at hc
    · cases hc
    · next hne => exact ⟨hne, hc⟩
  constructor
  case holder =>
    intro id₀ m₀ other hm₀ hheld₀
    rcases find_replaced hm₀ with ⟨rfl, rfl⟩ | ⟨heq, hm₁⟩
    · cases hheld₀
    · obtain ⟨c', hc', hlogged, hroute, hplace'⟩ := h.holder id₀ m₀ other hm₁ hheld₀
      have hne : other ≠ miner := by
        rintro rfl
        obtain rfl := Option.some.inj (hc.symm.trans hc')
        omega
      exact ⟨c', by rw [Table.find_erase_of_ne _ hne, hc'], hlogged, hroute, hplace'⟩
  case owned =>
    intro other c' hc' hlogged hroute hwait
    obtain ⟨hne, hc'⟩ := hthere hc'
    obtain ⟨id₀, m₀, hid₀, hup, hm₀, hheld₀⟩ := h.owned other c' hc' hlogged hroute hwait
    have heq : id₀ ≠ id := by
      rintro rfl
      obtain rfl := Option.some.inj (hm.symm.trans hm₀)
      exact hne (Option.some.inj (hheld₀.symm.trans hheld))
    exact ⟨id₀, m₀, hid₀, hup, by rw [Table.find_insert_of_ne _ heq, hm₀], hheld₀⟩
  case unplaced => exact fun other c' hc' => h.unplaced other c' (hthere hc').2
  case numbered => exact fun other c' hc' => h.numbered other c' (hthere hc').2

/-- A mapper loses the miner that disconnects. -/
theorem Owned.vacate {waiting : MinerId → Prop} (h : Owned waiting s tr)
    (hm : s.mappers.find id = some m) (hheld : m.miner = some miner) :
    Owned waiting
      { s with
        mappers := s.mappers.insert id (SimpleMapper.remove m)
        connections := s.connections.erase miner } tr := by
  have hup : id ∈ s.upstreams := by
    refine (h.alive id m hm).resolve_right fun hreleased => ?_
    obtain ⟨-, m', hm', hnone⟩ := h.released id hreleased
    rw [Option.some.inj (hm'.symm.trans hm), hheld] at hnone
    cases hnone
  have hregistry := h.toRegistry.replace hup hm
    (rfl : (SimpleMapper.remove m).id = m.id) (fun _ => rfl) fun hheld => absurd rfl hheld
  have hlog := h.toLogged.replace hm (SimpleMapper.remove m)
  exact ⟨⟨hregistry.registered, hregistry.indexed, hregistry.alive, hregistry.idle,
      hregistry.released, hregistry.rested⟩, h.toSeated.vacate hm hheld,
    ⟨hlog.releasedOnce, hlog.stoppedOnce, hlog.deletedOnce, hlog.stopped, hlog.deleted, hlog.found⟩⟩

/-- A registered mapper without a miner may wait for the next one. -/
theorem Owned.rest {waiting : MinerId → Prop} (h : Owned waiting s tr) (hid : id ∈ s.upstreams)
    (hm : s.mappers.find id = some m) (hfree : m.miner = none) :
    Owned waiting { s with idles := insert id s.idles } tr := by
  refine ⟨⟨h.registered, h.indexed, h.alive, fun id₀ hid₀ => ?_, h.released, h.rested⟩,
    ⟨h.holder, h.owned, h.unplaced, h.numbered⟩,
    ⟨h.releasedOnce, h.stoppedOnce, h.deletedOnce, h.stopped, h.deleted, h.found⟩⟩
  rcases Finset.mem_insert.mp hid₀ with rfl | hid₀
  · refine ⟨hid, fun m₀ hm₀ => ?_⟩
    rw [Option.some.inj (hm₀.symm.trans hm), hfree]
  · exact h.idle id₀ hid₀

/-- The mapper of a miner that leaves is stopped and released, or waits for the next one. -/
theorem remove_spec {c : Connection} (hplace : c.mapperId = id) (hroute : c.routeId = -1)
    (hid : id ∈ s.upstreams) (hm : s.mappers.find id = some m) :
    remove c s =
      if s.reuseTimeout = 0 then
        ({ s with
            mappers := s.mappers.insert id (SimpleMapper.remove m)
            upstreams := s.upstreams.erase id
            idles := s.idles.erase id
            released := s.released ++ [id] },
          .stopped id :: (SimpleMapper.stop (SimpleMapper.remove m)).2.map (.mapper id))
      else
        ({ s with
            mappers := s.mappers.insert id (SimpleMapper.remove m)
            idles := insert id s.idles }, []) := by
  have hplaced : (decide (c.mapperId < 0) || decide (c.routeId ≠ -1) ||
      decide (c.mapperId.toNat ∉ s.upstreams)) = false := by
    rw [hplace, hroute]
    simp [hid]
  have hnat : c.mapperId.toNat = id := by omega
  unfold remove
  dsimp only
  rw [hplaced, hnat]
  unfold Handler.seq
  have hwork : atMapper id (fun mapper => (SimpleMapper.remove mapper, [])) s =
      ({ s with mappers := s.mappers.insert id (SimpleMapper.remove m) }, []) := by
    unfold atMapper
    rw [hm]
    rfl
  rw [hwork]
  by_cases hreuse : s.reuseTimeout = 0
  · have hfind : (s.mappers.insert id (SimpleMapper.remove m)).find id =
        some (SimpleMapper.remove m) := Table.find_insert_self _ _ _
    simp only [hreuse, if_true, Bool.false_eq_true, if_false]
    rw [stop_spec hfind]
    simp
  · simp [hreuse]

end Departures

section Steps

variable {s : State} {tr : List Output} {miner : MinerId} {c : Connection}

theorem owned_initial (reuseTimeout : ℕ) :
    Owned (fun _ => False) (machine reuseTimeout).init [] where
  registered := fun id hid => absurd hid (Finset.notMem_empty id)
  indexed := fun _ _ hm => by cases hm
  alive := fun _ _ hm => by cases hm
  idle := fun id hid => absurd hid (Finset.notMem_empty id)
  released := fun _ hid => by cases hid
  rested := fun _ _ hm => by cases hm
  holder := fun _ _ _ hm => by cases hm
  owned := fun _ _ hc => by cases hc
  unplaced := fun _ _ hc => by cases hc
  numbered := fun _ _ hc => by cases hc
  releasedOnce := List.nodup_nil
  stoppedOnce := List.nodup_nil
  deletedOnce := List.nodup_nil
  stopped := fun id => by simp [stoppedIds, machine]
  deleted := fun id => by simp [deletedIds, machine]
  found := fun _ ho => by cases ho

theorem Owned.connect (h : Owned (fun _ => False) s tr) :
    Owned (fun _ => False)
      { s with
        nextId := s.nextId + 1
        connections := s.connections.insert s.nextId.succPNat {} } tr := by
  have hnew : ∀ {other : MinerId} {c}, s.connections.find other = some c →
      other ≠ s.nextId.succPNat := by
    rintro other c hc rfl
    have := h.numbered _ c hc
    rw [Nat.succPNat_coe] at this
    omega
  have hat : ∀ {other : MinerId} {c},
      (s.connections.insert s.nextId.succPNat {}).find other = some c →
      (other = s.nextId.succPNat ∧ c = {}) ∨ s.connections.find other = some c := by
    intro other c hc
    rw [Table.find_insert] at hc
    split at hc
    · next heq => exact Or.inl ⟨heq, (Option.some.inj hc).symm⟩
    · exact Or.inr hc
  refine ⟨⟨h.registered, h.indexed, h.alive, h.idle, h.released, h.rested⟩, ⟨?_, ?_, ?_, ?_⟩,
    ⟨h.releasedOnce, h.stoppedOnce, h.deletedOnce, h.stopped, h.deleted, h.found⟩⟩
  · intro id m other hm hheld
    obtain ⟨c, hc, hrest⟩ := h.holder id m other hm hheld
    exact ⟨c, by rw [Table.find_insert_of_ne _ (hnew hc), hc], hrest⟩
  · intro other c hc hlogged
    rcases hat hc with ⟨-, rfl⟩ | hc
    · cases hlogged
    · exact h.owned other c hc hlogged
  · intro other c hc hlogged
    rcases hat hc with ⟨-, rfl⟩ | hc
    · exact ⟨rfl, rfl⟩
    · exact h.unplaced other c hc hlogged
  · intro other c hc
    rcases hat hc with ⟨rfl, -⟩ | hc
    · exact (Nat.succPNat_coe _).le
    · exact (h.numbered other c hc).trans (Nat.le_succ _)

/-- A miner that logs in waits for a mapper. -/
theorem Owned.admit (h : Owned (fun _ => False) s tr) (hc : s.connections.find miner = some c)
    (hlogged : c.loggedIn = false) {c' : Connection} (hlogged' : c'.loggedIn = true) :
    Owned (· = miner) { s with connections := s.connections.insert miner c' } tr := by
  refine ⟨⟨h.registered, h.indexed, h.alive, h.idle, h.released, h.rested⟩, ⟨?_, ?_, ?_, ?_⟩,
    ⟨h.releasedOnce, h.stoppedOnce, h.deletedOnce, h.stopped, h.deleted, h.found⟩⟩
  · intro id m other hm hheld
    have hne : other ≠ miner := by
      rintro rfl
      exact h.not_held hc (h.unplaced other c hc hlogged).1 hm hheld
    obtain ⟨c₀, hc₀, hrest⟩ := h.holder id m other hm hheld
    exact ⟨c₀, by rw [Table.find_insert_of_ne _ hne, hc₀], hrest⟩
  · intro other c₀ hc₀ hlogged₀ hroute hne
    rw [Table.find_insert_of_ne _ hne] at hc₀
    exact h.owned other c₀ hc₀ hlogged₀ hroute (fun hwait => hwait)
  · intro other c₀ hc₀ hlogged₀
    rw [Table.find_insert] at hc₀
    split at hc₀
    · rw [← Option.some.inj hc₀, hlogged'] at hlogged₀
      cases hlogged₀
    · exact h.unplaced other c₀ hc₀ hlogged₀
  · intro other c₀ hc₀
    rw [Table.find_insert] at hc₀
    split at hc₀
    · next heq => exact heq ▸ h.numbered miner c hc
    · exact h.numbered other c₀ hc₀

/-- A donating miner needs no mapper here. -/
theorem Owned.donate (h : Owned (· = miner) s tr) (hc : s.connections.find miner = some c)
    (hroute : c.routeId ≠ -1) : Owned (fun _ => False) s tr := by
  refine ⟨h.toRegistry, ⟨h.holder, ?_, h.unplaced, h.numbered⟩, h.toLogged⟩
  intro other c' hc' hlogged hroute' _
  apply h.owned other c' hc' hlogged hroute'
  rintro rfl
  rw [Option.some.inj (hc.symm.trans hc')] at hroute
  exact hroute hroute'

theorem Owned.onLogin (h : Owned (fun _ => False) s tr) (now : ℕ) (miner : MinerId)
    (donateTo : Option ℕ) :
    Owned (fun _ => False) (onDownstream now (.login miner donateTo) s).1
      (tr ++ (onDownstream now (.login miner donateTo) s).2) := by
  unfold onDownstream
  dsimp only
  split
  · next c hc =>
      cases hlogged : c.loggedIn with
      | true => simpa using h
      | false =>
          obtain ⟨hplace, hroute⟩ := h.unplaced miner c hc hlogged
          cases donateTo with
          | some id =>
              have hadmit := h.admit hc hlogged
                (rfl : ({ c with loggedIn := true, mapperId := id, routeId := 0 } :
                  Connection).loggedIn = true)
              have hdonate := hadmit.donate (Table.find_insert_self _ _ _) (by simp)
              simpa using hdonate
          | none =>
              have hadmit := h.admit hc hlogged
                (rfl : ({ c with loggedIn := true } : Connection).loggedIn = true)
              exact hadmit.login (Table.find_insert_self _ _ _) rfl hplace hroute
  · simpa using h

theorem Owned.onSubmit (h : Owned (fun _ => False) s tr) (now : ℕ) (miner : MinerId)
    (request : JobResult) (answer : ℤ) :
    Owned (fun _ => False) (onDownstream now (.submit miner request answer) s).1
      (tr ++ (onDownstream now (.submit miner request answer) s).2) := by
  unfold onDownstream
  dsimp only
  split
  · next c hc =>
      split
      · next hlogged =>
          unfold submit
          dsimp only
          split
          · simpa using h
          · next hplaced =>
              have hroute : c.routeId = -1 := by
                by_contra hne
                simp [hne] at hplaced
              obtain ⟨id, m, hid, hup, hm, -⟩ :=
                h.owned miner c hc hlogged hroute (fun hwait => hwait)
              have hnat : c.mapperId.toNat = id := by omega
              rw [hnat, if_neg (not_not.mpr hup)]
              exact h.atMapper hm (sameHolder_submit now _ answer m)
      · simpa using h
  · simpa using h

theorem Owned.onClose (h : Owned (fun _ => False) s tr) (now : ℕ) (miner : MinerId) :
    Owned (fun _ => False) (onDownstream now (.close miner) s).1
      (tr ++ (onDownstream now (.close miner) s).2) := by
  unfold onDownstream
  dsimp only
  split
  · next c hc =>
      by_cases hplaced : c.loggedIn = true ∧ c.routeId = -1
      · obtain ⟨id, m, hid, hup, hm, hheld⟩ :=
          h.owned miner c hc hplaced.1 hplaced.2 (fun hwait => hwait)
        have hvacated := h.vacate hm hheld
        have hfind : (s.mappers.insert id (SimpleMapper.remove m)).find id =
            some (SimpleMapper.remove m) := Table.find_insert_self _ _ _
        rw [remove_spec hid hplaced.2 hup hm]
        split
        · obtain ⟨hstopped, hdeleted, hfound⟩ := stop_observed id (SimpleMapper.remove m)
          have hretired := hvacated.retire (List.nodup_singleton id)
            (fun id' hid' => by
              obtain rfl := List.mem_singleton.mp hid'
              exact ⟨hup, _, hfind, rfl⟩) hstopped hdeleted hfound
          simpa only [List.toFinset_cons, List.toFinset_nil, insert_empty_eq,
            Finset.sdiff_singleton_eq_erase] using hretired
        · simpa using hvacated.rest hup hfind rfl
      · -- A miner without a mapper, or one that the donation splitter has taken.
        have hnone : remove c s = (s, []) := by
          have hskip : (decide (c.mapperId < 0) || decide (c.routeId ≠ -1)) = true := by
            cases hlogged : c.loggedIn with
            | false => simp [(h.unplaced miner c hc hlogged).1]
            | true =>
                have hroute : c.routeId ≠ -1 := fun heq => hplaced ⟨hlogged, heq⟩
                simp [hroute]
          unfold remove
          dsimp only
          rw [hskip, Bool.true_or, if_pos rfl]
        rw [hnone, List.append_nil]
        refine h.disconnect fun id m hm hheld => ?_
        obtain ⟨c', hc', hlogged, hroute, -⟩ := h.holder id m miner hm hheld
        obtain rfl := Option.some.inj (hc.symm.trans hc')
        exact hplaced ⟨hlogged, hroute⟩
  · simpa using h

theorem expired_spec {id : ℕ} (h : id ∈ expired s) :
    id ∈ s.upstreams ∧ ∃ m, s.mappers.find id = some m ∧ s.reuseTimeout < m.idleTime := by
  obtain ⟨hmem, hp⟩ := List.mem_filter.mp h
  refine ⟨(Finset.mem_sort _).mp hmem, ?_⟩
  cases hm : s.mappers.find id with
  | none => simp [hm] at hp
  | some m => exact ⟨m, rfl, by simpa [hm] using hp⟩

theorem Owned.tickMappers (h : Owned (fun _ => False) s tr) :
    Owned (fun _ => False) (tickMappers s) tr := by
  have hsame : ∀ (id : ℕ) m, SameHolder m
      (if id ∈ s.upstreams ∧ id ∉ expired s then SimpleMapper.tick m else m) := by
    intro id m
    split
    · exact sameHolder_tick m
    · exact SameHolder.refl m
  refine h.mappers (fun id m hm => ?_) fun id m' hm' => ?_
  · exact ⟨_, by rw [Table.find_map, hm, Option.map_some], hsame id m⟩
  · rw [Table.find_map] at hm'
    cases hm : s.mappers.find id with
    | none =>
        rw [hm] at hm'
        cases hm'
    | some m =>
        rw [hm] at hm'
        obtain rfl := Option.some.inj hm'
        exact ⟨m, rfl, hsame id m⟩

theorem Owned.expired_free (h : Owned (fun _ => False) s tr) {id : ℕ} (hid : id ∈ expired s) :
    id ∈ s.upstreams ∧
      ∃ m, (SimpleSplitter.tickMappers s).mappers.find id = some m ∧ m.miner = none := by
  obtain ⟨hup, m, hm, hlong⟩ := expired_spec hid
  have hrested : m.miner = none := by
    by_contra hheld
    have := h.rested id m hm hheld
    omega
  refine ⟨hup, m, ?_, hrested⟩
  unfold SimpleSplitter.tickMappers
  rw [Table.find_map, hm, Option.map_some, if_neg fun hboth => hboth.2 hid]

/-- The mappers that rested for too long are stopped; the others tick. -/
theorem Owned.sweep_spec (h : Owned (fun _ => False) s tr) :
    ∃ out, Handler.forEach stop (expired s)
        { SimpleSplitter.tickMappers s with released := expired s } =
          ({ SimpleSplitter.tickMappers s with
              upstreams := s.upstreams \ (expired s).toFinset
              idles := s.idles \ (expired s).toFinset
              released := expired s }, out) ∧
      stoppedIds out = expired s ∧ deletedIds out = [] ∧ ∀ o ∈ out, isDangling o = false :=
  @forEach_stop { SimpleSplitter.tickMappers s with released := expired s } (expired s)
    fun _ hid => (h.expired_free hid).2.imp fun _ hm => hm.1

theorem Owned.sweep (h : Owned (fun _ => False) s tr) (hnone : s.released = []) :
    Owned (fun _ => False)
      (Handler.forEach stop (expired s)
        { SimpleSplitter.tickMappers s with released := expired s }).1
      (tr ++ (Handler.forEach stop (expired s)
        { SimpleSplitter.tickMappers s with released := expired s }).2) := by
  obtain ⟨out, hrun, hstopped, hdeleted, hfound⟩ := h.sweep_spec
  have honce : (expired s).Nodup := (Finset.sort_nodup _ _).filter _
  have hretired := h.tickMappers.retire honce (fun id hid => h.expired_free hid) hstopped hdeleted
    hfound
  have hreleased : (SimpleSplitter.tickMappers s).released ++ expired s = expired s := by
    change s.released ++ expired s = expired s
    rw [hnone, List.nil_append]
  rw [hreleased] at hretired
  rw [hrun]
  exact hretired

theorem Owned.onTick (h : Owned (fun _ => False) s tr) :
    Owned (fun _ => False) (tick s).1 (tr ++ (tick s).2) := by
  have hswept := h.collect.sweep rfl
  unfold tick Handler.seq
  rw [forEach_delete]
  rw [List.append_assoc] at hswept
  exact hswept

theorem Owned.reload (h : Owned (fun _ => False) s tr) {ids : List ℕ}
    (hids : ∀ id ∈ ids, id ∈ s.upstreams) :
    Owned (fun _ => False) (Handler.forEach
      (fun id => SimpleSplitter.atMapper id SimpleMapper.reload) ids s).1
      (tr ++ (Handler.forEach (fun id => SimpleSplitter.atMapper id SimpleMapper.reload)
        ids s).2) := by
  induction ids generalizing s tr with
  | nil => simpa [Handler.forEach, Handler.skip] using h
  | cons id rest ih =>
      obtain ⟨m, hm⟩ := h.registered id (hids id List.mem_cons_self)
      have hfirst := h.atMapper hm (⟨rfl, rfl, fun _ => rfl⟩ :
        SameHolder m (SimpleMapper.reload m).1)
      have hkept : (SimpleSplitter.atMapper id SimpleMapper.reload s).1.upstreams =
          s.upstreams := by
        unfold SimpleSplitter.atMapper
        rw [hm]
      have hrest := ih hfirst fun id' hid' => hkept ▸ hids id' (List.mem_cons_of_mem _ hid')
      rw [List.append_assoc] at hrest
      exact hrest

theorem Owned.onConfigChanged (h : Owned (fun _ => False) s tr) (reuseTimeout : ℕ)
    (poolsChanged : Bool) :
    Owned (fun _ => False) (onConfigChanged reuseTimeout poolsChanged s).1
      (tr ++ (onConfigChanged reuseTimeout poolsChanged s).2) := by
  have hset : Owned (fun _ => False) { s with reuseTimeout } tr :=
    ⟨⟨h.registered, h.indexed, h.alive, h.idle, h.released, h.rested⟩,
      ⟨h.holder, h.owned, h.unplaced, h.numbered⟩,
      ⟨h.releasedOnce, h.stoppedOnce, h.deletedOnce, h.stopped, h.deleted, h.found⟩⟩
  unfold SimpleSplitter.onConfigChanged
  dsimp only
  split
  · exact hset.reload fun id hid => (Finset.mem_sort _).mp hid
  · simpa using hset

theorem Owned.step (h : Owned (fun _ => False) s tr) (now : ℕ) (e : Event) :
    Owned (fun _ => False) (step now e s).1 (tr ++ (step now e s).2) := by
  cases e with
  | downstream event =>
      cases event with
      | connect => simpa [SimpleSplitter.step, onDownstream] using h.connect
      | login miner donateTo => exact h.onLogin now miner donateTo
      | submit miner request answer => exact h.onSubmit now miner request answer
      | close miner => exact h.onClose now miner
  | pool id event =>
      unfold SimpleSplitter.step
      dsimp only
      split
      · next hthere =>
          obtain ⟨m, hm⟩ := (Table.contains_iff _).mp hthere
          exact h.atMapper hm (sameHolder_onPoolEvent now event m)
      · simpa using h
  | tick => exact h.onTick
  | configChanged reuseTimeout poolsChanged => exact h.onConfigChanged reuseTimeout poolsChanged

theorem owned_run (reuseTimeout : ℕ) (es : ℕ → ℕ × Event) (k : ℕ) :
    Owned (fun _ => False) ((machine reuseTimeout).state es k)
      ((machine reuseTimeout).trace es k) :=
  Machine.invariant_trace (owned_initial reuseTimeout) (fun _ _ e h => h.step e.1 e.2) k

end Steps

section PrivateWork

variable {s : State} {id : ℕ} {now : ℕ}

/-- No mapper is deleted, and a job that is written to a miner carries no template entropy. -/
def IsHarmless : Output → Prop
  | .mapper _ (.setJob write) => write.job.templateEntropy = ""
  | .deleted _ => False
  | _ => True

theorem harmless_mapper {out : List SimpleMapper.Output}
    (h : ∀ write, .setJob write ∈ out → write.job.templateEntropy = "") :
    ∀ o ∈ out.map (.mapper id), IsHarmless o := by
  intro o ho
  obtain ⟨o', ho', rfl⟩ := List.mem_map.mp ho
  cases o' with
  | setJob write => exact h write ho'
  | _ => trivial

theorem harmless_atMapper {f : Handler SimpleMapper.State SimpleMapper.Output}
    (hf : ∀ m write, s.mappers.find id = some m → .setJob write ∈ (f m).2 →
      write.job.templateEntropy = "") : ∀ o ∈ (atMapper id f s).2, IsHarmless o := by
  unfold atMapper
  split
  · intro o ho
    obtain rfl := List.mem_singleton.mp ho
    trivial
  · next m hm => exact harmless_mapper fun write => hf m write hm

theorem harmless_append {out out' : List Output} (h : ∀ o ∈ out, IsHarmless o)
    (h' : ∀ o ∈ out', IsHarmless o) : ∀ o ∈ out ++ out', IsHarmless o := by
  intro o ho
  rcases List.mem_append.mp ho with ho | ho
  · exact h o ho
  · exact h' o ho

theorem harmless_forEach {f : ℕ → Handler State Output}
    (hf : ∀ id s, ∀ o ∈ (f id s).2, IsHarmless o) (ids : List ℕ) (s : State) :
    ∀ o ∈ (Handler.forEach f ids s).2, IsHarmless o := by
  induction ids generalizing s with
  | nil =>
      intro o ho
      cases ho
  | cons id rest ih => exact harmless_append (hf id s) (ih _)

theorem harmless_stop (id : ℕ) (s : State) : ∀ o ∈ (stop id s).2, IsHarmless o := by
  refine harmless_append (fun o ho => ?_) (harmless_atMapper fun m write _ hmem => ?_)
  · obtain rfl := List.mem_singleton.mp ho
    trivial
  · unfold SimpleMapper.stop at hmem
    simp at hmem

/-- Only mappers whose job may be shared are handed on. -/
theorem harmless_login (miner : MinerId) (s : State) : ∀ o ∈ (login miner s).2, IsHarmless o := by
  unfold login
  cases hreuse : reusable s with
  | some id =>
      refine harmless_atMapper fun m write hm hmem => ?_
      obtain ⟨-, m', hm', hreusable⟩ := reusable_spec hreuse
      obtain rfl := Option.some.inj (hm'.symm.trans hm)
      have hempty : m'.currentJob.job.templateEntropy = "" := by
        simp only [SimpleMapper.isReusable, Bool.and_eq_true, decide_eq_true_eq] at hreusable
        exact hreusable.2
      unfold SimpleMapper.reuse at hmem
      dsimp only at hmem
      split at hmem
      · obtain ⟨rfl⟩ := List.mem_singleton.mp hmem
        exact hempty
      · cases hmem
  | none =>
      refine harmless_atMapper fun m write _ hmem => ?_
      simp [SimpleMapper.add] at hmem

theorem harmless_remove (c : Connection) (s : State) : ∀ o ∈ (remove c s).2, IsHarmless o := by
  unfold remove
  dsimp only
  split
  · intro o ho
    cases ho
  · refine harmless_append (harmless_atMapper fun m write _ hmem => by cases hmem) ?_
    dsimp only
    split
    · exact harmless_append (harmless_stop _ _) fun o ho => by cases ho
    · intro o ho
      cases ho

theorem harmless_submit (now : ℕ) (event : SubmitEvent) (answer : ℤ) (c : Connection) (s : State) :
    ∀ o ∈ (submit now event answer c s).2, IsHarmless o := by
  unfold submit
  dsimp only
  split
  · intro o ho
    cases ho
  split
  · intro o ho
    obtain rfl := List.mem_singleton.mp ho
    trivial
  · refine harmless_atMapper fun m write _ hmem => ?_
    unfold SimpleMapper.submit at hmem
    split at hmem <;> simp at hmem

theorem harmless_onDownstream (now : ℕ) (event : DownstreamEvent) (s : State) :
    ∀ o ∈ (onDownstream now event s).2, IsHarmless o := by
  have hnil : ∀ o ∈ ([] : List Output), IsHarmless o := fun o ho => by cases ho
  cases event with
  | connect => exact hnil
  | login miner donateTo =>
      unfold onDownstream
      dsimp only
      split
      · next c hc =>
          split
          · exact hnil
          · cases donateTo with
            | none => exact harmless_login miner _
            | some id => exact hnil
      · exact hnil
  | submit miner request answer =>
      unfold onDownstream
      dsimp only
      split
      · next c hc =>
          split
          · exact harmless_submit now _ answer c s
          · exact hnil
      · exact hnil
  | close miner =>
      unfold onDownstream
      dsimp only
      split
      · next c hc => exact harmless_remove c s
      · exact hnil

theorem harmless_tick (s : State) :
    ∀ o ∈ (tick s).2, (∃ id ∈ s.released, o = .deleted id) ∨ IsHarmless o := by
  intro o ho
  unfold tick Handler.seq at ho
  rw [forEach_delete] at ho
  rcases List.mem_append.mp ho with ho | ho
  · obtain ⟨id, hid, rfl⟩ := List.mem_map.mp ho
    exact Or.inl ⟨id, hid, rfl⟩
  · exact Or.inr (harmless_forEach harmless_stop _ _ o ho)

theorem harmless_onConfigChanged (reuseTimeout : ℕ) (poolsChanged : Bool) (s : State) :
    ∀ o ∈ (onConfigChanged reuseTimeout poolsChanged s).2, IsHarmless o := by
  unfold onConfigChanged
  dsimp only
  split
  · refine harmless_forEach (fun id s => harmless_atMapper fun m write _ hmem => ?_) _ _
    simp [SimpleMapper.reload] at hmem
  · intro o ho
    cases ho

/-- A mapper writes the job that its strategy brings to the miner that it holds. -/
theorem onPoolEvent_setJob {e : SimpleMapper.PoolEvent} {m : SimpleMapper.State} {write : JobWrite}
    (h : .setJob write ∈ (SimpleMapper.onPoolEvent now e m).2) :
    ∃ strategy, e = .job strategy write.job ∧ m.miner = some write.miner := by
  cases e with
  | active strategy =>
      unfold SimpleMapper.onPoolEvent SimpleMapper.onActive at h
      dsimp only at h
      split at h <;> simp at h
  | pause strategy => cases h
  | job strategy job =>
      unfold SimpleMapper.onPoolEvent SimpleMapper.setJob at h
      dsimp only at h
      cases hminer : m.miner with
      | none =>
          rw [hminer] at h
          split at h <;> simp at h
      | some miner =>
          rw [hminer] at h
          have hwrite : write = { miner, job } := by split at h <;> simpa using h
          rw [hwrite]
          exact ⟨strategy, rfl, rfl⟩
  | result seq requestId ambiguous error =>
      unfold SimpleMapper.onPoolEvent SimpleMapper.onResultAccepted at h
      cases hminer : m.miner with
      | none => simp [hminer] at h
      | some miner => cases ambiguous <;> simp [hminer] at h

/-- The steps that are not harmless. A job with template entropy is written in the step that
brings it, to the miner that the mapper of its strategy holds. -/
theorem harmful_step {e : Event} {o : Output} (hmem : o ∈ (step now e s).2) (h : ¬ IsHarmless o) :
    (∃ id ∈ s.released, o = .deleted id) ∨
      ∃ id strategy m write, o = .mapper id (.setJob write) ∧
        e = .pool id (.job strategy write.job) ∧ s.mappers.find id = some m ∧
        m.miner = some write.miner := by
  cases e with
  | downstream event => exact absurd (harmless_onDownstream now event s o hmem) h
  | tick => exact Or.inl ((harmless_tick s o hmem).resolve_right h)
  | configChanged reuseTimeout poolsChanged =>
      exact absurd (harmless_onConfigChanged reuseTimeout poolsChanged s o hmem) h
  | pool id event =>
      change o ∈ (if s.mappers.contains id then atMapper id (SimpleMapper.onPoolEvent now event) s
        else (s, [])).2 at hmem
      split at hmem
      · next hthere =>
          obtain ⟨m, hm⟩ := (Table.contains_iff _).mp hthere
          unfold atMapper at hmem
          rw [hm] at hmem
          obtain ⟨o', ho, rfl⟩ := List.mem_map.mp hmem
          cases o' with
          | setJob write =>
              obtain ⟨strategy, rfl, hminer⟩ := onPoolEvent_setJob ho
              exact Or.inr ⟨id, strategy, m, write, rfl, rfl, hm, hminer⟩
          | _ => exact absurd trivial h
      · cases hmem

theorem private_job {e : Event} {write : JobWrite}
    (hmem : Output.mapper id (.setJob write) ∈ (step now e s).2)
    (hentropy : write.job.templateEntropy ≠ "") :
    ∃ strategy m, e = .pool id (.job strategy write.job) ∧ s.mappers.find id = some m ∧
      m.miner = some write.miner := by
  rcases harmful_step hmem hentropy with
    ⟨_, _, hdeleted⟩ | ⟨id', strategy, m, write', hwrite, he, hm, hheld⟩
  · cases hdeleted
  · obtain ⟨rfl, hjob⟩ := Output.mapper.inj hwrite
    obtain rfl := SimpleMapper.Output.setJob.inj hjob
    exact ⟨strategy, m, he, hm, hheld⟩

theorem deleted_released {e : Event} (hmem : Output.deleted id ∈ (step now e s).2) :
    id ∈ s.released := by
  rcases harmful_step hmem (fun h => h) with ⟨id', hid, heq⟩ | ⟨_, _, _, _, heq, -⟩
  · obtain rfl := Output.deleted.inj heq
    exact hid
  · cases heq

variable {reuseTimeout : ℕ} {es : ℕ → ℕ × Event}

/-- The entropy of a template is drawn once, for one job. -/
def EntropyFresh (es : ℕ → ℕ × Event) : Prop :=
  ∀ i j id id' strategy strategy' job job',
    (es i).2 = .pool id (.job strategy job) → (es j).2 = .pool id' (.job strategy' job') →
      job.templateEntropy ≠ "" → job.templateEntropy = job'.templateEntropy → i = j

theorem private_work (hfresh : EntropyFresh es) {k id' : ℕ} {write write' : JobWrite}
    (hmem : .mapper id (.setJob write) ∈ (machine reuseTimeout).trace es k)
    (hmem' : .mapper id' (.setJob write') ∈ (machine reuseTimeout).trace es k)
    (hentropy : write.job.templateEntropy ≠ "")
    (hsame : write.job.templateEntropy = write'.job.templateEntropy) :
    write.miner = write'.miner := by
  obtain ⟨i, -, hi⟩ := (Machine.mem_trace _).mp hmem
  obtain ⟨j, -, hj⟩ := (Machine.mem_trace _).mp hmem'
  obtain ⟨strategy, m, he, hm, hheld⟩ := private_job hi hentropy
  obtain ⟨strategy', m', he', hm', hheld'⟩ := private_job hj (hsame ▸ hentropy)
  obtain rfl := hfresh i j id id' strategy strategy' _ _ he he' hentropy hsame
  obtain ⟨rfl, -⟩ := Event.pool.inj (he.symm.trans he')
  obtain rfl := Option.some.inj (hm.symm.trans hm')
  exact Option.some.inj (hheld.symm.trans hheld')

end PrivateWork

end XmrigProxy.SimpleSplitter
