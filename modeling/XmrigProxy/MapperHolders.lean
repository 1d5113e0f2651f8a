import XmrigProxy.SimpleOwnership

/-! Which miners the mappers of the simple mode hold. What is kept here does not ask that every
miner gets a mapper, since a login may be refused before the splitter hears of it. -/
namespace XmrigProxy.SimpleSplitter

/-- The tables of the splitter agree: a mapper that holds a miner is registered and not idle, and is
the one that the miner was told. -/
structure Held (s : State) : Prop where
  known : ∀ id, id ∈ s.upstreams ∨ id ∈ s.released → id < s.sequence
  idle : s.idles ⊆ s.upstreams
  released : ∀ id ∈ s.released, id ∉ s.upstreams
  free : ∀ id m, s.mappers.find id = some m → id ∈ s.idles ∨ id ∉ s.upstreams → m.miner = none
  rested : ∀ id m, s.mappers.find id = some m → m.miner ≠ none → m.idleTime = 0
  holder : ∀ (id : ℕ) m miner, s.mappers.find id = some m → m.miner = some miner →
    ∃ c, s.connections.find miner = some c ∧ c.loggedIn = true ∧ c.routeId = -1 ∧ c.mapperId = id
  unplaced : ∀ miner c, s.connections.find miner = some c → c.loggedIn = false →
    c.mapperId = -1 ∧ c.routeId = -1
  numbered : ∀ miner c, s.connections.find miner = some c → (miner : ℕ) ≤ s.nextId

section Holding

variable {s : State} {miner : MinerId} {c : Connection} {id : ℕ}

theorem held_initial (reuseTimeout : ℕ) : Held { reuseTimeout } := by
  refine ⟨?_, subset_rfl, fun _ _ => Finset.notMem_empty _, ?_, ?_, ?_, ?_, ?_⟩
  · rintro id (hid | hid)
    · exact absurd hid (Finset.notMem_empty id)
    · exact absurd hid List.not_mem_nil
  · intro id m hm
    cases hm
  · intro id m hm
    cases hm
  · intro id m miner hm
    cases hm
  · intro miner c hc
    cases hc
  · intro miner c hc
    cases hc

/-- Mappers may change or go as long as none holds anybody new. -/
theorem Held.mappers (h : Held s) {mappers : Table ℕ SimpleMapper.State}
    (hback : ∀ id m', mappers.find id = some m' → ∃ m, s.mappers.find id =
      some m ∧ SameHolder m m') :
    Held { s with mappers } := by
  refine ⟨h.known, h.idle, h.released, ?_, ?_, ?_, h.unplaced, h.numbered⟩
  · intro id m' hm' hunused
    obtain ⟨m, hm, hsame⟩ := hback id m' hm'
    rw [hsame.miner]
    exact h.free id m hm hunused
  · intro id m' hm' hheld
    obtain ⟨m, hm, hsame⟩ := hback id m' hm'
    rw [hsame.miner] at hheld
    rw [hsame.rested hheld]
    exact h.rested id m hm hheld
  · intro id m' miner hm' hheld
    obtain ⟨m, hm, hsame⟩ := hback id m' hm'
    exact h.holder id m miner hm (hsame.miner ▸ hheld)

theorem Held.atMapper (h : Held s) (id : ℕ) {f : Handler SimpleMapper.State SimpleMapper.Output}
    (hf : ∀ m, SameHolder m (f m).1) : Held (atMapper id f s).1 := by
  unfold SimpleSplitter.atMapper
  split
  · exact h
  · next m hm =>
    apply h.mappers
    intro id' m' hm'
    by_cases hid : id' = id
    · subst hid
      rw [Table.find_insert_self] at hm'
      obtain rfl := Option.some.inj hm'
      exact ⟨m, hm, hf m⟩
    · rw [Table.find_insert_of_ne _ hid] at hm'
      exact ⟨m', hm', SameHolder.refl m'⟩

theorem Held.not_held (h : Held s) (hc : s.connections.find miner = some c)
    (hplace : c.mapperId = -1) {m : SimpleMapper.State} (hm : s.mappers.find id = some m) :
    m.miner ≠ some miner := by
  intro hheld
  obtain ⟨c', hc', -, -, hid⟩ := h.holder id m miner hm hheld
  obtain rfl := Option.some.inj (hc.symm.trans hc')
  omega

theorem Held.connect (h : Held s) : Held
    { s with
      nextId := s.nextId + 1
      connections := s.connections.insert s.nextId.succPNat {} } := by
  have hnew : ∀ {other : MinerId} {c}, s.connections.find other = some c →
      other ≠ s.nextId.succPNat := by
    rintro other c hc rfl
    have hle := h.numbered _ c hc
    rw [Nat.succPNat_coe] at hle
    omega
  have hat : ∀ {other : MinerId} {c},
      (s.connections.insert s.nextId.succPNat {}).find other = some c →
      (other = s.nextId.succPNat ∧ c = {}) ∨ s.connections.find other = some c := by
    intro other c hc
    rw [Table.find_insert] at hc
    split at hc
    · next heq => exact Or.inl ⟨heq, (Option.some.inj hc).symm⟩
    · exact Or.inr hc
  refine ⟨h.known, h.idle, h.released, h.free, h.rested, ?_, ?_, ?_⟩
  · intro id m other hm hheld
    obtain ⟨c, hc, hrest⟩ := h.holder id m other hm hheld
    exact ⟨c, by rw [Table.find_insert_of_ne _ (hnew hc), hc], hrest⟩
  · intro other c hc hlogged
    rcases hat hc with ⟨-, rfl⟩ | hc
    · exact ⟨rfl, rfl⟩
    · exact h.unplaced other c hc hlogged
  · intro other c hc
    rcases hat hc with ⟨rfl, -⟩ | hc
    · exact (Nat.succPNat_coe _).le
    · exact (h.numbered other c hc).trans (Nat.le_succ _)

/-- The connection of a miner that has no mapper may change. -/
theorem Held.change (h : Held s) (hc : s.connections.find miner = some c) (hplace : c.mapperId = -1)
    {connections : Table MinerId Connection} {c' : Connection} (hlogged : c'.loggedIn = true)
    (hself : connections.find miner = some c')
    (hother : ∀ other, other ≠ miner → connections.find other = s.connections.find other) :
    Held { s with connections } := by
  refine ⟨h.known, h.idle, h.released, h.free, h.rested, ?_, ?_, ?_⟩
  · intro id m other hm hheld
    have hne : other ≠ miner := by
      rintro rfl
      exact h.not_held hc hplace hm hheld
    obtain ⟨d, hd, hrest⟩ := h.holder id m other hm hheld
    exact ⟨d, (hother other hne).trans hd, hrest⟩
  · intro other d hd hout
    by_cases heq : other = miner
    · subst heq
      obtain rfl := Option.some.inj (hself.symm.trans hd)
      rw [hlogged] at hout
      cases hout
    · exact h.unplaced other d ((hother other heq).symm.trans hd) hout
  · intro other d hd
    by_cases heq : other = miner
    · subst heq
      exact h.numbered other c hc
    · exact h.numbered other d ((hother other heq).symm.trans hd)

/-- A free mapper that is registered takes a miner. -/
theorem Held.place (h : Held s) (hc : s.connections.find miner = some c)
    (hlogged : c.loggedIn = true) (hplace : c.mapperId = -1) (hroute : c.routeId = -1)
    (hid : id ∈ s.upstreams)
    (hidle : id ∉ s.idles) {m' : SimpleMapper.State}
    (hm' : m'.miner = some miner ∧ m'.idleTime = 0) :
    Held { s with
      connections := s.connections.modify miner fun c => { c with mapperId := id }
      mappers := s.mappers.insert id m' } := by
  have hself : (s.connections.modify miner fun c => { c with mapperId := id }).find miner =
      some { c with mapperId := id } := by
    simp [Table.find_modify, hc]
  have hother : ∀ other, other ≠ miner →
      (s.connections.modify miner fun c => { c with mapperId := id }).find other =
        s.connections.find other := by
    intro other hne
    simp [Table.find_modify, hne]
  have hat : ∀ {id₀ : ℕ} {m₀}, (s.mappers.insert id m').find id₀ = some m₀ →
      (id₀ = id ∧ m₀ = m') ∨ (id₀ ≠ id ∧ s.mappers.find id₀ = some m₀) := by
    intro id₀ m₀ hm₀
    by_cases heq : id₀ = id
    · subst heq
      rw [Table.find_insert_self] at hm₀
      exact Or.inl ⟨rfl, (Option.some.inj hm₀).symm⟩
    · rw [Table.find_insert_of_ne _ heq] at hm₀
      exact Or.inr ⟨heq, hm₀⟩
  refine ⟨h.known, h.idle, h.released, ?_, ?_, ?_, ?_, ?_⟩
  · intro id₀ m₀ hm₀ hunused
    rcases hat hm₀ with ⟨rfl, rfl⟩ | ⟨-, hm₀⟩
    · exact (hunused.elim (fun hunused => hidle hunused) fun hunused => hunused hid).elim
    · exact h.free id₀ m₀ hm₀ hunused
  · intro id₀ m₀ hm₀ hheld
    rcases hat hm₀ with ⟨rfl, rfl⟩ | ⟨-, hm₀⟩
    · exact hm'.2
    · exact h.rested id₀ m₀ hm₀ hheld
  · intro id₀ m₀ other hm₀ hheld
    rcases hat hm₀ with ⟨rfl, rfl⟩ | ⟨-, hm₁⟩
    · obtain rfl : miner = other := Option.some.inj (hm'.1.symm.trans hheld)
      exact ⟨_, hself, hlogged, hroute, rfl⟩
    · have hne : other ≠ miner := by
        rintro rfl
        exact h.not_held hc hplace hm₁ hheld
      obtain ⟨c', hc', hrest⟩ := h.holder id₀ m₀ other hm₁ hheld
      exact ⟨c', (hother other hne).trans hc', hrest⟩
  · intro other c' hc' hout
    by_cases heq : other = miner
    · subst heq
      rw [hself] at hc'
      obtain rfl := Option.some.inj hc'
      rw [hlogged] at hout
      cases hout
    · rw [hother other heq] at hc'
      exact h.unplaced other c' hc' hout
  · intro other c' hc'
    by_cases heq : other = miner
    · subst heq
      exact h.numbered other c hc
    · rw [hother other heq] at hc'
      exact h.numbered other c' hc'

theorem Held.removeIdle (h : Held s) (id : ℕ) : Held (removeIdle id s) :=
  ⟨h.known, (Finset.erase_subset id s.idles).trans h.idle, h.released, fun id₀ m hm hunused =>
    h.free id₀ m hm (hunused.imp_left Finset.mem_of_mem_erase), h.rested, h.holder, h.unplaced,
    h.numbered⟩

theorem Held.create (h : Held s) : Held
    { s with
      sequence := s.sequence + 1
      mappers := s.mappers.insert s.sequence { id := s.sequence }
      upstreams := insert s.sequence s.upstreams } := by
  have hat : ∀ {id : ℕ} {m}, (s.mappers.insert s.sequence { id := s.sequence }).find id = some m →
      m.miner = none ∨ (id ≠ s.sequence ∧ s.mappers.find id = some m) := by
    intro id m hm
    by_cases heq : id = s.sequence
    · subst heq
      rw [Table.find_insert_self] at hm
      obtain rfl := Option.some.inj hm
      exact Or.inl rfl
    · rw [Table.find_insert_of_ne _ heq] at hm
      exact Or.inr ⟨heq, hm⟩
  refine ⟨?_, h.idle.trans (Finset.subset_insert _ _), ?_, ?_, ?_, ?_, h.unplaced, h.numbered⟩
  · rintro id (hid | hid)
    · rcases Finset.mem_insert.mp hid with rfl | hid
      · exact Nat.lt_succ_self _
      · exact (h.known id (Or.inl hid)).trans (Nat.lt_succ_self _)
    · exact (h.known id (Or.inr hid)).trans (Nat.lt_succ_self _)
  · intro id hid hmem
    rcases Finset.mem_insert.mp hmem with rfl | hmem
    · exact lt_irrefl _ (h.known _ (Or.inr hid))
    · exact h.released id hid hmem
  · intro id m hm hunused
    rcases hat hm with hnone | ⟨hne, hm⟩
    · exact hnone
    · refine h.free id m hm (hunused.imp_right fun hnot hid => ?_)
      exact hnot (Finset.mem_insert_of_mem hid)
  · intro id m hm hheld
    rcases hat hm with hnone | ⟨-, hm⟩
    · exact absurd hnone hheld
    · exact h.rested id m hm hheld
  · intro id m miner hm hheld
    rcases hat hm with hnone | ⟨-, hm⟩
    · rw [hnone] at hheld
      cases hheld
    · exact h.holder id m miner hm hheld

theorem Held.login (h : Held s) (hc : s.connections.find miner = some c)
    (hlogged : c.loggedIn = true) (hplace : c.mapperId = -1) (hroute : c.routeId = -1) :
    Held (login miner s).1 := by
  unfold SimpleSplitter.login
  cases hreuse : reusable s with
  | some id =>
      obtain ⟨hidle, m, hm, -⟩ := reusable_spec hreuse
      have hfind : (assign miner id (SimpleSplitter.removeIdle id s)).mappers.find id = some m := hm
      dsimp only
      unfold SimpleSplitter.atMapper
      rw [hfind]
      exact (h.removeIdle id).place hc hlogged hplace hroute (h.idle hidle)
        (Finset.notMem_erase id _) ⟨rfl, rfl⟩
  | none =>
      have hfind : (assign miner s.sequence
          { s with
            sequence := s.sequence + 1
            mappers := s.mappers.insert s.sequence { id := s.sequence }
            upstreams := insert s.sequence s.upstreams }).mappers.find s.sequence =
          some { id := s.sequence } := Table.find_insert_self _ _ _
      dsimp only
      unfold SimpleSplitter.atMapper
      rw [hfind]
      apply h.create.place hc hlogged hplace hroute (Finset.mem_insert_self _ _) ?_ ⟨rfl, rfl⟩
      intro hidle
      exact lt_irrefl _ (h.known _ (Or.inl (h.idle hidle)))

/-- A mapper lets its miner go. -/
theorem Held.vacate (h : Held s) (id : ℕ) :
    Held (SimpleSplitter.atMapper id (fun mapper => (SimpleMapper.remove mapper, [])) s).1 := by
  unfold SimpleSplitter.atMapper
  split
  · exact h
  · next m hm =>
    have hat : ∀ {id₀ : ℕ} {m₀}, (s.mappers.insert id (SimpleMapper.remove m)).find id₀ = some m₀ →
        m₀.miner = none ∨ s.mappers.find id₀ = some m₀ := by
      intro id₀ m₀ hm₀
      rw [Table.find_insert] at hm₀
      split at hm₀
      · obtain rfl := Option.some.inj hm₀
        exact Or.inl rfl
      · exact Or.inr hm₀
    refine ⟨h.known, h.idle, h.released, ?_, ?_, ?_, h.unplaced, h.numbered⟩
    · intro id₀ m₀ hm₀ hunused
      exact (hat hm₀).elim (fun hnone => hnone) fun hm₀ => h.free id₀ m₀ hm₀ hunused
    · intro id₀ m₀ hm₀ hheld
      exact (hat hm₀).elim (fun hnone => absurd hnone hheld) fun hm₀ => h.rested id₀ m₀ hm₀ hheld
    · intro id₀ m₀ other hm₀ hheld
      rcases hat hm₀ with hnone | hm₀
      · rw [hnone] at hheld
        cases hheld
      · exact h.holder id₀ m₀ other hm₀ hheld

/-- Mappers without miners may be taken out of the table. -/
theorem Held.retire (h : Held s) {ids : List ℕ}
    (hfree : ∀ id ∈ ids, id ∈ s.upstreams ∧ ∀ m, s.mappers.find id = some m → m.miner = none) :
    Held { s with
      upstreams := s.upstreams \ ids.toFinset
      idles := s.idles \ ids.toFinset
      released := s.released ++ ids } := by
  refine ⟨?_, Finset.sdiff_subset_sdiff h.idle subset_rfl, ?_, ?_, h.rested, h.holder, h.unplaced,
    h.numbered⟩
  · rintro id (hid | hid)
    · exact h.known id (Or.inl (Finset.mem_sdiff.mp hid).1)
    · rcases List.mem_append.mp hid with hid | hid
      · exact h.known id (Or.inr hid)
      · exact h.known id (Or.inl (hfree id hid).1)
  · intro id hid hmem
    obtain ⟨hmem, hnot⟩ := Finset.mem_sdiff.mp hmem
    rcases List.mem_append.mp hid with hid | hid
    · exact h.released id hid hmem
    · exact hnot (List.mem_toFinset.mpr hid)
  · intro id m hm hunused
    rcases hunused with hunused | hunused
    · exact h.free id m hm (Or.inl (Finset.mem_sdiff.mp hunused).1)
    · by_cases hid : id ∈ ids
      · exact (hfree id hid).2 m hm
      · refine h.free id m hm (Or.inr fun hmem => hunused ?_)
        exact Finset.mem_sdiff.mpr ⟨hmem, fun hin => hid (List.mem_toFinset.mp hin)⟩

theorem state_stop (id : ℕ) (s : State) :
    (stop id s).1 = { s with upstreams := s.upstreams.erase id, idles := s.idles.erase id } := by
  cases hm : s.mappers.find id with
  | some m => rw [stop_spec hm]
  | none =>
      have hnone : (removeUpstream id (SimpleSplitter.removeIdle id s)).mappers.find id = none := hm
      unfold stop Handler.seq SimpleSplitter.atMapper
      dsimp only
      rw [hnone]
      rfl

theorem state_forEach_stop (ids : List ℕ) (s : State) :
    (Handler.forEach stop ids s).1 =
      { s with upstreams := s.upstreams \ ids.toFinset, idles := s.idles \ ids.toFinset } := by
  induction ids generalizing s with
  | nil => simp [Handler.forEach, Handler.skip]
  | cons id rest ih =>
      have herase : ∀ t : Finset ℕ, t.erase id \ rest.toFinset = t \ (id :: rest).toFinset := by
        intro t
        ext x
        simp
        tauto
      change (Handler.forEach stop rest (stop id s).1).1 = _
      rw [ih, state_stop]
      simp only [herase]

theorem mappers_vacate {id₀ : ℕ} {m₀ : SimpleMapper.State}
    (hm₀ : (SimpleSplitter.atMapper id (fun mapper => (SimpleMapper.remove mapper, []))
      s).1.mappers.find id₀ = some m₀) :
      (id₀ = id → m₀.miner = none) ∧ (m₀.miner ≠ none → s.mappers.find id₀ = some m₀) := by
  unfold SimpleSplitter.atMapper at hm₀
  split at hm₀
  · next hnone =>
    refine ⟨fun heq => ?_, fun _ => hm₀⟩
    subst heq
    change s.mappers.find id₀ = some m₀ at hm₀
    rw [hnone] at hm₀
    cases hm₀
  · change (s.mappers.insert id _).find id₀ = some m₀ at hm₀
    by_cases heq : id₀ = id
    · subst heq
      rw [Table.find_insert_self] at hm₀
      obtain rfl := Option.some.inj hm₀
      exact ⟨fun _ => rfl, fun hheld => absurd rfl hheld⟩
    · rw [Table.find_insert_of_ne _ heq] at hm₀
      exact ⟨fun hid => absurd hid heq, fun _ => hm₀⟩

/-- A miner that leaves is held by nobody after. -/
theorem Held.remove (h : Held s) (hc : s.connections.find miner = some c) :
    Held (remove c s).1 ∧
      ∀ id m, (remove c s).1.mappers.find id = some m → m.miner ≠ some miner := by
  unfold SimpleSplitter.remove
  dsimp only
  split
  · next hskip =>
    refine ⟨h, fun id m hm hheld => ?_⟩
    obtain ⟨c', hc', -, hroute, hplace⟩ := h.holder id m miner hm hheld
    obtain rfl := Option.some.inj (hc.symm.trans hc')
    rw [hplace, hroute] at hskip
    have hcases : (id : ℤ) < 0 ∨ id ∉ s.upstreams := by simpa using hskip
    rcases hcases with hneg | hout
    · omega
    · rw [h.free id m hm (Or.inr hout)] at hheld
      cases hheld
  · next hup =>
    have hid : c.mapperId.toNat ∈ s.upstreams := by
      by_contra hout
      exact hup (by simp [hout])
    have hvacant := h.vacate c.mapperId.toNat
    have hgone : ∀ id m, (SimpleSplitter.atMapper c.mapperId.toNat
        (fun mapper => (SimpleMapper.remove mapper, [])) s).1.mappers.find id = some m →
        m.miner ≠ some miner := by
      intro id m hm hheld
      obtain ⟨hnone, hbefore⟩ := mappers_vacate hm
      obtain ⟨c', hc', -, -, hplace⟩ := h.holder id m miner (hbefore (by simp [hheld])) hheld
      obtain rfl := Option.some.inj (hc.symm.trans hc')
      rw [hnone (by omega)] at hheld
      cases hheld
    have hfree : ∀ m, (SimpleSplitter.atMapper c.mapperId.toNat
        (fun mapper => (SimpleMapper.remove mapper, [])) s).1.mappers.find c.mapperId.toNat =
        some m → m.miner = none := fun m hm => (mappers_vacate hm).1 rfl
    have hkept : (SimpleSplitter.atMapper c.mapperId.toNat
        (fun mapper => (SimpleMapper.remove mapper, [])) s).1.upstreams = s.upstreams := by
      unfold SimpleSplitter.atMapper
      split <;> rfl
    unfold Handler.seq
    dsimp only
    generalize (SimpleSplitter.atMapper c.mapperId.toNat
      (fun mapper => (SimpleMapper.remove mapper, [])) s).1 = s₁ at *
    rw [← hkept] at hid
    split
    · rw [state_stop]
      have hretired := @Held.retire s₁ hvacant [c.mapperId.toNat] (by simpa using ⟨hid, hfree⟩)
      refine ⟨?_, hgone⟩
      simpa [Finset.sdiff_singleton_eq_erase] using hretired
    · refine ⟨⟨hvacant.known, Finset.insert_subset hid hvacant.idle, hvacant.released, ?_,
        hvacant.rested, hvacant.holder, hvacant.unplaced, hvacant.numbered⟩, hgone⟩
      intro id m hm hunused
      rcases hunused with hunused | hunused
      · rcases Finset.mem_insert.mp hunused with rfl | hunused
        · exact hfree m hm
        · exact hvacant.free id m hm (Or.inl hunused)
      · exact hvacant.free id m hm (Or.inr hunused)

/-- The connection of a miner that nobody holds is closed. -/
theorem Held.erase (h : Held s)
    (hfree : ∀ id m, s.mappers.find id = some m → m.miner ≠ some miner) :
    Held { s with connections := s.connections.erase miner } := by
  have hat : ∀ {other : MinerId} {c}, (s.connections.erase miner).find other = some c →
      s.connections.find other = some c := by
    intro other c hc
    rw [Table.find_erase] at hc
    split at hc
    · cases hc
    · exact hc
  refine ⟨h.known, h.idle, h.released, h.free, h.rested, fun id m other hm hheld => ?_,
    fun other c hc => h.unplaced other c (hat hc), fun other c hc => h.numbered other c (hat hc)⟩
  have hne : other ≠ miner := by
    rintro rfl
    exact hfree id m hm hheld
  obtain ⟨c, hc, hrest⟩ := h.holder id m other hm hheld
  exact ⟨c, by rw [Table.find_erase_of_ne _ hne, hc], hrest⟩

theorem Held.submit (h : Held s) (now : ℕ) (event : SubmitEvent) (answer : ℤ) (c : Connection) :
    Held (submit now event answer c s).1 := by
  unfold SimpleSplitter.submit
  dsimp only
  split
  · exact h
  · split
    · exact h
    · exact h.atMapper _ fun m => sameHolder_submit now event answer m

theorem Held.collect (h : Held s) (ids : List ℕ) :
    Held { s with
      mappers := ids.foldl Table.erase s.mappers
      released := [] } := by
  have hkept : Held { s with mappers := ids.foldl Table.erase s.mappers } := by
    apply h.mappers
    intro id m' hm'
    rw [find_foldl_erase] at hm'
    split at hm'
    · cases hm'
    · exact ⟨m', hm', SameHolder.refl m'⟩
  exact ⟨fun id hid => h.known id (Or.inl (hid.resolve_right List.not_mem_nil)), hkept.idle,
    fun id hid => absurd hid List.not_mem_nil, hkept.free, hkept.rested,
      hkept.holder, hkept.unplaced,
    hkept.numbered⟩

theorem Held.tickMappers (h : Held s) : Held (tickMappers s) := by
  apply h.mappers
  intro id m' hm'
  rw [Table.find_map] at hm'
  obtain ⟨m, hm, rfl⟩ := Option.map_eq_some_iff.mp hm'
  refine ⟨m, hm, ?_⟩
  split
  · exact sameHolder_tick m
  · exact SameHolder.refl m

/-- A mapper that is held is never idle for too long. -/
theorem Held.sweep (h : Held s) (hnone : s.released = []) :
    Held (Handler.forEach stop (expired s)
      { SimpleSplitter.tickMappers s with released := expired s }).1 := by
  have hfree : ∀ id ∈ expired s, id ∈ (SimpleSplitter.tickMappers s).upstreams ∧
      ∀ m, (SimpleSplitter.tickMappers s).mappers.find id = some m → m.miner = none := by
    intro id hid
    obtain ⟨hup, m, hm, hlong⟩ := expired_spec hid
    refine ⟨hup, fun m' hm' => ?_⟩
    have hsame : (SimpleSplitter.tickMappers s).mappers.find id = some m := by
      unfold SimpleSplitter.tickMappers
      rw [Table.find_map, hm, Option.map_some, if_neg fun hboth => hboth.2 hid]
    obtain rfl := Option.some.inj (hsame.symm.trans hm')
    by_contra hheld
    have hzero := h.rested id m hm hheld
    omega
  have hretired := h.tickMappers.retire hfree
  have hreleased : (SimpleSplitter.tickMappers s).released ++ expired s = expired s := by
    change s.released ++ expired s = expired s
    rw [hnone, List.nil_append]
  rw [hreleased] at hretired
  rw [state_forEach_stop]
  exact hretired

theorem Held.tick (h : Held s) : Held (tick s).1 := by
  unfold SimpleSplitter.tick Handler.seq
  rw [forEach_delete]
  exact (h.collect s.released).sweep rfl

theorem Held.onConfigChanged (h : Held s) (reuseTimeout : ℕ) (poolsChanged : Bool) :
    Held (onConfigChanged reuseTimeout poolsChanged s).1 := by
  have hset : Held { s with reuseTimeout } :=
    ⟨h.known, h.idle, h.released, h.free, h.rested, h.holder, h.unplaced, h.numbered⟩
  unfold SimpleSplitter.onConfigChanged
  dsimp only
  split
  · generalize s.upstreams.sort (· ≤ ·) = ids
    generalize { s with reuseTimeout } = s' at hset
    induction ids generalizing s' with
    | nil => exact hset
    | cons id rest ih => exact ih _ (hset.atMapper id fun m => ⟨rfl, rfl, fun _ => rfl⟩)
  · exact hset

end Holding

end XmrigProxy.SimpleSplitter
