import XmrigProxy.NonceSplitter

/-! Miners and mappers of the nicehash mode refer to each other: the mapper that a miner keeps
the index of exists, is awake and has the miner registered. -/
namespace XmrigProxy.NonceSplitter

open UpstreamMapper (isSuspended PoolEvent)

section Mappers

variable {config : DonateStrategy.Config} {m m' : NonceMapper.State} {miner : MinerId}

/-- Neither the identity of the mapper nor its miners change. -/
structure Keeps (m m' : NonceMapper.State) : Prop where
  id : m'.id = m.id
  suspended : m'.suspended = m.suspended
  miners : m'.storage.miners = m.storage.miners
  assigned : NonceStorage.Assigned m.storage → NonceStorage.Assigned m'.storage

theorem Keeps.refl (m : NonceMapper.State) : Keeps m m :=
  ⟨rfl, rfl, rfl, fun h => h⟩

theorem Keeps.trans {m'' : NonceMapper.State} (h : Keeps m m') (h' : Keeps m' m'') :
    Keeps m m'' :=
  ⟨h'.id.trans h.id, h'.suspended.trans h.suspended, h'.miners.trans h.miners,
    fun ha => h'.assigned (h.assigned ha)⟩

theorem keeps_of_storage (hid : m'.id = m.id) (hsuspended : m'.suspended = m.suspended)
    (hstorage : m'.storage = m.storage) : Keeps m m' :=
  ⟨hid, hsuspended, by rw [hstorage], fun h => hstorage ▸ h⟩

theorem keeps_setJob (job : Job) (m : NonceMapper.State) :
    Keeps m (UpstreamMapper.setJob NonceStorage.ops job m).1 :=
  ⟨rfl, rfl, rfl, fun h => h.setJob job⟩

theorem keeps_setActive (active : Bool) (m : NonceMapper.State) :
    Keeps m { m with storage := NonceStorage.setActive active m.storage } :=
  ⟨rfl, rfl, rfl, fun h => ⟨h.own, h.registered⟩⟩

theorem keeps_setAlgo (algorithm : Algorithm) (m : NonceMapper.State) :
    Keeps m (UpstreamMapper.setAlgo algorithm m) := keeps_of_storage rfl rfl rfl

theorem keeps_reschedule (m : NonceMapper.State) :
    Keeps m (UpstreamMapper.reschedule config m).2.1 := by
  unfold UpstreamMapper.reschedule
  split
  · exact Keeps.refl m
  · exact keeps_of_storage rfl rfl rfl

theorem keeps_onJob (job : Job) (m : NonceMapper.State) :
    Keeps m (UpstreamMapper.onJob NonceStorage.ops config job m).1 := by
  unfold UpstreamMapper.onJob
  split
  · dsimp only
    split
    · exact ((keeps_reschedule m).trans (keeps_setAlgo _ _)).trans (keeps_setJob _ _)
    · exact (keeps_reschedule m).trans (keeps_of_storage rfl rfl rfl)
  · exact (keeps_setAlgo _ _).trans (keeps_setJob _ _)

theorem keeps_onDonateJob (job : Job) (m : NonceMapper.State) :
    Keeps m (UpstreamMapper.onDonateJob NonceStorage.ops job m).1 := by
  unfold UpstreamMapper.onDonateJob
  split
  · exact Keeps.refl m
  · dsimp only
    split
    · exact (keeps_setAlgo _ _).trans (keeps_setJob _ _)
    · refine Keeps.trans ?_ (keeps_setJob _ _)
      refine Keeps.trans ?_ (keeps_setAlgo _ _)
      exact (keeps_setActive true m).trans (keeps_of_storage rfl rfl rfl)

theorem keeps_onDonateClose (m : NonceMapper.State) :
    Keeps m (UpstreamMapper.onDonateClose NonceStorage.ops m) := by
  unfold UpstreamMapper.onDonateClose
  split
  · exact Keeps.refl m
  · split
    · exact (keeps_setActive false m).trans (keeps_of_storage rfl rfl rfl)
    · exact Keeps.refl m

theorem keeps_onPoolEvent (e : PoolEvent) (m : NonceMapper.State) :
    Keeps m (UpstreamMapper.onPoolEvent NonceStorage.ops config e m).1 := by
  cases e with
  | active => exact (keeps_setActive true m).trans (keeps_of_storage rfl rfl rfl)
  | pause => exact (keeps_setActive false m).trans (keeps_of_storage rfl rfl rfl)
  | job job => exact keeps_onJob job m
  | donateJob job => exact keeps_onDonateJob job m
  | donateClose => exact keeps_onDonateClose m
  | result toDonate seq error =>
      unfold UpstreamMapper.onPoolEvent UpstreamMapper.onResultAccepted UpstreamMapper.submitCtx
      dsimp only
      split
      · exact Keeps.refl m
      · exact keeps_of_storage rfl rfl rfl

theorem keeps_tick (m : NonceMapper.State) :
    Keeps m (UpstreamMapper.tick NonceStorage.ops config m).1 := by
  have htick : Keeps m (UpstreamMapper.tickDonate m).1 := by
    unfold UpstreamMapper.tickDonate
    split
    · exact Keeps.refl m
    · exact keeps_of_storage rfl rfl rfl
  apply htick.trans
  change Keeps _ (UpstreamMapper.resumeSaved NonceStorage.ops config _).1
  unfold UpstreamMapper.resumeSaved
  split
  · exact Keeps.refl _
  · split
    · dsimp only
      split
      · exact (keeps_reschedule _).trans (keeps_setJob _ _)
      · exact keeps_reschedule _
    · exact Keeps.refl _

theorem keeps_submit (event : SubmitEvent) (answer : ℤ) (m : NonceMapper.State) :
    Keeps m (UpstreamMapper.submit NonceStorage.ops event answer m).1 := by
  unfold UpstreamMapper.submit
  split
  · exact Keeps.refl m
  · exact keeps_of_storage rfl rfl rfl

/-- A mapper that takes a miner is awake. -/
theorem add_eq_some {out : List UpstreamMapper.Output}
    (h : UpstreamMapper.add NonceStorage.ops miner m = some (m', out)) :
    ∃ index, NonceStorage.nextIndex m.storage = some index ∧
      m'.storage = NonceStorage.take miner index m.storage ∧ m'.id = m.id ∧ m'.suspended = 0 := by
  obtain ⟨⟨storage, writes⟩, hstored, hout⟩ := Option.map_eq_some_iff.mp h
  obtain ⟨index, hindex, heq⟩ := Option.map_eq_some_iff.mp hstored
  have hstorage : NonceStorage.take miner index m.storage = storage := congrArg Prod.fst heq
  have hm' : _ = m' := congrArg Prod.fst hout
  refine ⟨index, hindex, ?_, ?_, ?_⟩
  all_goals rw [← hm']
  all_goals by_cases hs : isSuspended m = true
  all_goals simp only [isSuspended, decide_eq_true_eq] at hs
  all_goals simp [Handler.seq, isSuspended, hs, UpstreamMapper.connect, Handler.skip, hstorage]
  omega

end Mappers

section Vectors

variable {R : NonceMapper.State → NonceMapper.State → Prop} {l l' : List NonceMapper.State}

/-- The mappers of two vectors correspond. -/
structure Corresponds (R : NonceMapper.State → NonceMapper.State → Prop)
    (l l' : List NonceMapper.State) : Prop where
  forth : ∀ (i : ℕ) m, l[i]? = some m → ∃ m', l'[i]? = some m' ∧ R m m'
  back : ∀ (i : ℕ) m', l'[i]? = some m' → ∃ m, l[i]? = some m ∧ R m m'

theorem corresponds_map {f : NonceMapper.State → NonceMapper.State} (hf : ∀ m, R m (f m))
    (l : List NonceMapper.State) : Corresponds R l (l.map f) := by
  constructor
  · intro i m hm
    exact ⟨f m, by simp [hm], hf m⟩
  · intro i m' hm'
    rw [List.getElem?_map] at hm'
    obtain ⟨m, hm, rfl⟩ := Option.map_eq_some_iff.mp hm'
    exact ⟨m, hm, hf m⟩

theorem corresponds_set {m m' : NonceMapper.State} {i : ℕ} (hi : l[i]? = some m)
    (hrefl : ∀ m, R m m) (hR : R m m') : Corresponds R l (l.set i m') := by
  have hlt : i < l.length := (List.getElem?_eq_some_iff.mp hi).1
  constructor
  · intro j m₀ hj
    by_cases hij : i = j
    · subst hij
      obtain rfl := Option.some.inj (hi.symm.trans hj)
      exact ⟨m', by simp [hlt], hR⟩
    · exact ⟨m₀, by rw [List.getElem?_set_ne hij, hj], hrefl m₀⟩
  · intro j m₀ hj
    by_cases hij : i = j
    · subst hij
      obtain rfl : m' = m₀ := by simpa [hlt] using hj
      exact ⟨m, hi, hR⟩
    · rw [List.getElem?_set_ne hij] at hj
      exact ⟨m₀, hj, hrefl m₀⟩

end Vectors

section Routing

/-- Miners that have just logged in wait for a mapper; every other one that has logged in and
does not donate is registered at the mapper it points to. -/
structure Routed (waiting : MinerId → Prop) (s : State) : Prop where
  indexed : ∀ (i : ℕ) m, s.upstreams[i]? = some m → m.id = i
  assigned : ∀ (i : ℕ) m, s.upstreams[i]? = some m → NonceStorage.Assigned m.storage
  awake : ∀ (i : ℕ) m, s.upstreams[i]? = some m →
    i = 0 ∨ m.storage.miners.Nonempty → m.suspended = 0
  nonempty : s.upstreams ≠ []
  routed : ∀ miner c, s.connections.find miner = some c → c.loggedIn = true → c.routeId = -1 →
    ¬ waiting miner →
      ∃ (i : ℕ) (m : NonceMapper.State), c.mapperId = i ∧ s.upstreams[i]? = some m ∧
        miner ∈ m.storage.miners
  owned : ∀ (i : ℕ) m, s.upstreams[i]? = some m → ∀ miner ∈ m.storage.miners,
    ∃ c, s.connections.find miner = some c ∧ c.loggedIn = true ∧ c.routeId = -1 ∧ c.mapperId = i
  unplaced : ∀ miner c, s.connections.find miner = some c → c.loggedIn = false ∨ waiting miner →
    c.mapperId = -1 ∧ c.routeId = -1
  numbered : ∀ miner c, s.connections.find miner = some c → (miner : ℕ) ≤ s.nextId

variable {config : DonateStrategy.Config} {fresh : Fresh} {waiting : MinerId → Prop} {s : State}
  {miner : MinerId} {c : Connection}

theorem Routed.keeps (h : Routed waiting s) {upstreams : List NonceMapper.State}
    (hkeeps : Corresponds Keeps s.upstreams upstreams) : Routed waiting { s with upstreams } := by
  refine ⟨fun i m' hm' => ?_, fun i m' hm' => ?_, fun i m' hm' hawake => ?_, fun hnil => ?_,
    fun miner c hc hlogged hroute hwait => ?_, fun i m' hm' miner hmem =>
      ?_, h.unplaced, h.numbered⟩
  · obtain ⟨m, hm, hk⟩ := hkeeps.back i m' hm'
    rw [hk.id, h.indexed i m hm]
  · obtain ⟨m, hm, hk⟩ := hkeeps.back i m' hm'
    exact hk.assigned (h.assigned i m hm)
  · obtain ⟨m, hm, hk⟩ := hkeeps.back i m' hm'
    rw [hk.suspended]
    exact h.awake i m hm (by rwa [← hk.miners])
  · obtain ⟨m, hm⟩ := List.exists_mem_of_ne_nil _ h.nonempty
    obtain ⟨i, hi⟩ := List.mem_iff_getElem?.mp hm
    obtain ⟨m', hm', -⟩ := hkeeps.forth i _ hi
    have hnil : upstreams = [] := hnil
    rw [hnil] at hm'
    cases hm'
  · obtain ⟨i, m, hid, hm, hmem⟩ := h.routed miner c hc hlogged hroute hwait
    obtain ⟨m', hm', hk⟩ := hkeeps.forth i m hm
    exact ⟨i, m', hid, hm', by rwa [hk.miners]⟩
  · obtain ⟨m, hm, hk⟩ := hkeeps.back i m' hm'
    exact h.owned i m hm miner (by rwa [← hk.miners])

theorem Routed.atMapper (h : Routed waiting s) {id : ℕ}
    {f : Handler NonceMapper.State UpstreamMapper.Output} (hf : ∀ m, Keeps m (f m).1) :
    Routed waiting (atMapper id f s).1 := by
  unfold NonceSplitter.atMapper
  split
  · exact h
  · next m hm => exact h.keeps (corresponds_set hm Keeps.refl (hf m))

theorem Routed.tick (h : Routed waiting s) : Routed waiting (tick config s).1 := by
  have hticked : (s.upstreams.map (UpstreamMapper.tick NonceStorage.ops config)).map Prod.fst =
      s.upstreams.map fun m => (UpstreamMapper.tick NonceStorage.ops config m).1 := by
    rw [List.map_map]
    rfl
  unfold NonceSplitter.tick
  dsimp only
  rw [hticked]
  exact h.keeps (corresponds_map keeps_tick _)

theorem Routed.submit (h : Routed waiting s) (event : SubmitEvent) (answer : ℤ) (c : Connection) :
    Routed waiting (submit event answer c s).1 := by
  unfold NonceSplitter.submit
  split
  · exact h
  · exact h.atMapper fun m => keeps_submit event answer m

/-- A waiting miner is registered nowhere. -/
theorem Routed.not_mem (h : Routed waiting s) (hc : s.connections.find miner = some c)
    (hwait : c.loggedIn = false ∨ waiting miner) {i : ℕ} {m : NonceMapper.State}
    (hm : s.upstreams[i]? = some m) : miner ∉ m.storage.miners := by
  intro hmem
  obtain ⟨c', hc', -, -, hid⟩ := h.owned i m hm miner hmem
  obtain rfl := Option.some.inj (hc.symm.trans hc')
  have := (h.unplaced miner c hc hwait).1
  omega

/-- The mapper at index `i` has taken the miner. -/
structure Taken (miner : MinerId) (l : List NonceMapper.State) (i : ℕ) (m m' : NonceMapper.State) :
    Prop where
  found : l[i]? = some m
  stored : ∃ index, NonceStorage.nextIndex m.storage = some index ∧
    m'.storage = NonceStorage.take miner index m.storage
  id : m'.id = m.id
  awake : m'.suspended = 0

theorem tryAdd_eq_some {choose : NonceMapper.State → Bool} {l : List NonceMapper.State}
    {taken : ℕ × List NonceMapper.State × List Output} (h : tryAdd choose miner l = some taken) :
    ∃ i m m', Taken miner l i m m' ∧ choose m = true ∧ taken.1 = m'.id ∧
      taken.2.1 = l.set i m' := by
  induction l generalizing taken with
  | nil => cases h
  | cons mapper rest ih =>
      unfold tryAdd at h
      split at h
      · next m' out hadd =>
        cases h
        by_cases hchoose : choose mapper = true
        · rw [if_pos hchoose] at hadd
          obtain ⟨index, hindex, hstorage, hid, hawake⟩ := add_eq_some hadd
          exact ⟨0, mapper, m', ⟨rfl, ⟨index, hindex, hstorage⟩, hid, hawake⟩, hchoose, rfl, rfl⟩
        · simp [hchoose] at hadd
      · obtain ⟨tail, htail, rfl⟩ := Option.map_eq_some_iff.mp h
        obtain ⟨i, m, m', ht, hchoose, hid, hset⟩ := ih htail
        refine ⟨i + 1, m, m', ⟨ht.found, ht.stored, ht.id, ht.awake⟩, hchoose, hid, ?_⟩
        simp [hset]

theorem tryAdd_eq_none {choose : NonceMapper.State → Bool} {l : List NonceMapper.State}
    (h : tryAdd choose miner l = none) :
    ∀ m ∈ l, choose m = true → NonceStorage.nextIndex m.storage = none := by
  induction l with
  | nil => simp
  | cons mapper rest ih =>
      unfold tryAdd at h
      split at h
      · cases h
      · next hadd =>
        intro m hm hchoose
        rcases List.mem_cons.mp hm with rfl | hm
        · rw [if_pos hchoose] at hadd
          simpa [UpstreamMapper.add, NonceStorage.ops, NonceStorage.add] using hadd
        · exact ih (Option.map_eq_none_iff.mp h) m hm hchoose

/-- A mapper with room takes the waiting miner. -/
theorem Routed.assign (h : Routed (· = miner) s) (hc : s.connections.find miner = some c)
    (hlogged : c.loggedIn = true) {choose : NonceMapper.State → Bool}
    {taken : ℕ × List NonceMapper.State × List Output}
    (htaken : tryAdd choose miner s.upstreams = some taken) :
    Routed (fun _ => False) (assign miner taken s).1 := by
  obtain ⟨i, m, m', ⟨hfound, ⟨index, hindex, hstorage⟩, hid, hawake⟩, -, hmapper, hset⟩ :=
    tryAdd_eq_some htaken
  have hlt : i < s.upstreams.length := (List.getElem?_eq_some_iff.mp hfound).1
  have hroute := (h.unplaced miner c hc (Or.inr rfl)).2
  have hnot : ∀ {j : ℕ} {m₀}, s.upstreams[j]? = some m₀ → miner ∉ m₀.storage.miners :=
    fun hm => h.not_mem hc (Or.inr rfl) hm
  have hminers : m'.storage.miners = insert miner m.storage.miners := by rw [hstorage]; rfl
  have hat : ∀ {j : ℕ} {m₀}, (s.upstreams.set i m')[j]? = some m₀ →
      (j = i ∧ m₀ = m') ∨ (j ≠ i ∧ s.upstreams[j]? = some m₀) := by
    intro j m₀ hj
    by_cases hji : j = i
    · subst hji
      exact Or.inl ⟨rfl, by simpa [hlt, eq_comm] using hj⟩
    · rw [List.getElem?_set_ne (Ne.symm hji)] at hj
      exact Or.inr ⟨hji, hj⟩
  have hfind : ∀ other, other ≠ miner →
      ((NonceSplitter.assign miner taken s).1.connections.find other) =
        s.connections.find other := by
    intro other hne
    simp [NonceSplitter.assign, Table.find_modify, hne]
  have hself : (NonceSplitter.assign miner taken s).1.connections.find miner =
      some { c with mapperId := i } := by
    simp [NonceSplitter.assign, Table.find_modify, hc, hmapper, hid, h.indexed i m hfound]
  have hups : (NonceSplitter.assign miner taken s).1.upstreams = s.upstreams.set i m' := hset
  constructor
  case indexed =>
    intro j m₀ hj
    rw [hups] at hj
    rcases hat hj with ⟨rfl, rfl⟩ | ⟨-, hj⟩
    · rw [hid, h.indexed j m hfound]
    · exact h.indexed j m₀ hj
  case assigned =>
    intro j m₀ hj
    rw [hups] at hj
    rcases hat hj with ⟨rfl, rfl⟩ | ⟨-, hj⟩
    · rw [hstorage]
      exact (h.assigned j m hfound).take (hnot hfound) (NonceStorage.used_of_nextIndex hindex)
    · exact h.assigned j m₀ hj
  case awake =>
    intro j m₀ hj hbusy
    rw [hups] at hj
    rcases hat hj with ⟨rfl, rfl⟩ | ⟨-, hj⟩
    · exact hawake
    · exact h.awake j m₀ hj hbusy
  case nonempty =>
    rw [hups]
    intro hnil
    rw [List.set_eq_nil_iff] at hnil
    exact h.nonempty hnil
  case routed =>
    intro other c' hc' hlogged' hroute' _
    rw [hups]
    by_cases hother : other = miner
    · subst hother
      rw [hself] at hc'
      obtain rfl := Option.some.inj hc'
      exact ⟨i, m', rfl, by simp [hlt], by simp [hminers]⟩
    · rw [hfind other hother] at hc'
      obtain ⟨j, m₀, hj, hm₀, hmem⟩ := h.routed other c' hc' hlogged' hroute' hother
      by_cases hji : j = i
      · subst hji
        obtain rfl := Option.some.inj (hfound.symm.trans hm₀)
        exact ⟨j, m', hj, by simp [hlt], by simp [hminers, hmem]⟩
      · exact ⟨j, m₀, hj, by rw [List.getElem?_set_ne (Ne.symm hji), hm₀], hmem⟩
  case owned =>
    intro j m₀ hj other hmem
    rw [hups] at hj
    rcases hat hj with ⟨rfl, rfl⟩ | ⟨-, hj⟩
    · rw [hminers, Finset.mem_insert] at hmem
      rcases hmem with rfl | hmem
      · exact ⟨_, hself, hlogged, hroute, rfl⟩
      · have hother : other ≠ miner := fun heq => hnot hfound (heq ▸ hmem)
        rw [hfind other hother]
        exact h.owned j m hfound other hmem
    · have hother : other ≠ miner := fun heq => hnot hj (heq ▸ hmem)
      rw [hfind other hother]
      exact h.owned j m₀ hj other hmem
  case unplaced =>
    intro other c' hc' hwait
    have hlogged' : c'.loggedIn = false := hwait.resolve_right not_false
    by_cases hother : other = miner
    · subst hother
      rw [hself] at hc'
      obtain rfl := Option.some.inj hc'
      exact absurd hlogged (by simpa using hlogged')
    · rw [hfind other hother] at hc'
      exact h.unplaced other c' hc' (Or.inl hlogged')
  case numbered =>
    intro other c' hc'
    by_cases hother : other = miner
    · subst hother
      exact h.numbered other c hc
    · rw [hfind other hother] at hc'
      exact h.numbered other c' hc'

/-- A new mapper takes the next index. -/
theorem Routed.connect (h : Routed waiting s) : Routed waiting (connect config fresh s).1 := by
  have hat : ∀ {j : ℕ} {m₀}, (NonceSplitter.connect config fresh s).1.upstreams[j]? = some m₀ →
      s.upstreams[j]? = some m₀ ∨ (j = s.upstreams.length ∧
        m₀ = (UpstreamMapper.connect (NonceMapper.create config j fresh.index
          fresh.target)).1) := by
    intro j m₀ hj
    change (s.upstreams ++ [_])[j]? = some m₀ at hj
    rcases Nat.lt_trichotomy j s.upstreams.length with hlt | rfl | hgt
    · rw [List.getElem?_append_left hlt] at hj
      exact Or.inl hj
    · rw [List.getElem?_concat_length] at hj
      exact Or.inr ⟨rfl, (Option.some.inj hj).symm⟩
    · rw [List.getElem?_eq_none (by simp; omega)] at hj
      cases hj
  constructor
  case indexed =>
    intro j m₀ hj
    rcases hat hj with hj | ⟨-, rfl⟩
    · exact h.indexed j m₀ hj
    · rfl
  case assigned =>
    intro j m₀ hj
    rcases hat hj with hj | ⟨-, rfl⟩
    · exact h.assigned j m₀ hj
    · exact NonceStorage.assigned_initial fresh.index
  case awake =>
    intro j m₀ hj hbusy
    rcases hat hj with hj | ⟨-, rfl⟩
    · exact h.awake j m₀ hj hbusy
    · rfl
  case nonempty =>
    change s.upstreams ++ [_] ≠ []
    simp
  case routed =>
    intro other c' hc' hlogged hroute hwait
    obtain ⟨j, m₀, hj, hm₀, hmem⟩ := h.routed other c' hc' hlogged hroute hwait
    refine ⟨j, m₀, hj, ?_, hmem⟩
    change (s.upstreams ++ [_])[j]? = some m₀
    rw [List.getElem?_append_left (List.getElem?_eq_some_iff.mp hm₀).1, hm₀]
  case owned =>
    intro j m₀ hj other hmem
    rcases hat hj with hj | ⟨-, rfl⟩
    · exact h.owned j m₀ hj other hmem
    · exact absurd hmem (Finset.notMem_empty other)
  case unplaced => exact h.unplaced
  case numbered => exact h.numbered

/-- The new mapper has room for anyone. -/
theorem exists_tryAdd_connect (config : DonateStrategy.Config) (fresh : Fresh) (miner : MinerId)
    (s : State) : ∃ taken, tryAdd (fun mapper => !isSuspended mapper) miner
      (connect config fresh s).1.upstreams = some taken := by
  by_contra hnone
  have hnone : tryAdd (fun mapper => !isSuspended mapper) miner
      (connect config fresh s).1.upstreams = none := by
    cases htaken : tryAdd (fun mapper => !isSuspended mapper) miner
        (connect config fresh s).1.upstreams with
    | none => rfl
    | some taken => exact absurd ⟨taken, htaken⟩ hnone
  have hfull := tryAdd_eq_none hnone
    (UpstreamMapper.connect (NonceMapper.create config s.upstreams.length
      fresh.index fresh.target)).1
    (List.mem_append_right _ List.mem_cons_self) rfl
  exact absurd rfl (NonceStorage.nextIndex_eq_none.mp hfull 0)

/-- Two rounds are enough for a login, and it ends with the miner at a mapper. -/
theorem Routed.login (h : Routed (· = miner) s) (hc : s.connections.find miner = some c)
    (hlogged : c.loggedIn = true) (fuel : ℕ) :
    ∃ s' out, login config fresh miner (fuel + 2) s = some (s', out) ∧
      Routed (fun _ => False) s' ∧
      ∃ id : ℕ, s'.connections.find miner = some { c with mapperId := id } := by
  have hplaced : ∀ {s₀ : State} {taken}, s₀.connections = s.connections →
      ∃ id : ℕ, (NonceSplitter.assign miner taken s₀).1.connections.find miner =
        some { c with mapperId := id } := by
    intro s₀ taken hs₀
    exact ⟨taken.1, by simp [NonceSplitter.assign, Table.find_modify, hs₀, hc]⟩
  unfold NonceSplitter.login
  cases hactive : tryAdd (fun mapper => !isSuspended mapper) miner s.upstreams with
  | some taken => exact ⟨_, _, rfl, h.assign hc hlogged hactive, hplaced rfl⟩
  | none =>
      dsimp only
      cases hsuspended : tryAdd isSuspended miner s.upstreams with
      | some taken => exact ⟨_, _, rfl, h.assign hc hlogged hsuspended, hplaced rfl⟩
      | none =>
          obtain ⟨taken, htaken⟩ := exists_tryAdd_connect config fresh miner s
          have hconnected : Routed (· = miner) (NonceSplitter.connect config fresh s).1 := h.connect
          refine ⟨_, (NonceSplitter.connect config fresh s).2 ++
            (NonceSplitter.assign miner taken (NonceSplitter.connect config fresh s).1).2, ?_,
            hconnected.assign hc hlogged htaken, hplaced rfl⟩
          unfold NonceSplitter.login
          rw [htaken]
          rfl

end Routing

section Collection

variable {m m' : NonceMapper.State} {waiting : MinerId → Prop} {s : State}

theorem isUsed_eq_false {storage : NonceStorage.State} (h : NonceStorage.isUsed storage = false) :
    ∀ i, storage.used i ≤ 0 := by
  intro i
  have := List.any_eq_false.mp h i (List.mem_finRange i)
  simpa using this

/-- A registered miner keeps its storage in use. -/
theorem isUsed_of_mem {storage : NonceStorage.State} (h : NonceStorage.Assigned storage)
    {miner : MinerId} (hm : miner ∈ storage.miners) : NonceStorage.isUsed storage = true := by
  apply List.any_eq_true.mpr
  refine ⟨storage.fixedByte miner, List.mem_finRange _, ?_⟩
  have := h.own miner hm
  have := miner.pos
  simp only [decide_eq_true_eq]
  omega

/-- What a collection does to one mapper: the first mapper and those in use are left alone
while they are awake. -/
structure Collected (m m' : NonceMapper.State) : Prop where
  id : m'.id = m.id
  miners : m'.storage.miners = m.storage.miners
  assigned : NonceStorage.Assigned m.storage → NonceStorage.Assigned m'.storage
  kept : m.suspended = 0 → m.id = 0 ∨ NonceStorage.isUsed m.storage = true → m' = m

theorem collected_gc (paused : Bool) (m : NonceMapper.State) :
    Collected m (NonceMapper.gc paused m).1 := by
  unfold NonceMapper.gc
  by_cases hs : isSuspended m = true
  · rw [if_pos hs]
    refine ⟨rfl, rfl, fun h => h, fun hawake => ?_⟩
    simp [isSuspended, hawake] at hs
  · rw [if_neg hs]
    by_cases hkept : (m.id = 0 || NonceStorage.isUsed m.storage) = true
    · rw [if_pos hkept]
      exact ⟨rfl, rfl, fun h => h, fun _ _ => rfl⟩
    · rw [if_neg hkept]
      have hunused : NonceStorage.isUsed m.storage = false := by
        simp only [Bool.or_eq_true, not_or] at hkept
        simpa using hkept.2
      have hid : m.id ≠ 0 := by
        simp only [Bool.or_eq_true, not_or] at hkept
        simpa using hkept.1
      have hassigned : NonceStorage.Assigned m.storage →
          NonceStorage.Assigned (NonceStorage.reset (NonceStorage.setActive false m.storage)) := by
        intro h
        have hinactive : NonceStorage.Assigned (NonceStorage.setActive false m.storage) :=
          ⟨h.own, h.registered⟩
        exact hinactive.reset (isUsed_eq_false hunused)
      have hpaused : NonceStorage.Assigned m.storage → NonceStorage.Assigned
          (NonceStorage.setActive false
            (NonceStorage.reset (NonceStorage.setActive false m.storage))) :=
        fun h => ⟨(hassigned h).own, (hassigned h).registered⟩
      have hkept : m.id = 0 ∨ NonceStorage.isUsed m.storage = true → False := by
        rintro (h | h)
        · exact hid h
        · rw [hunused] at h
          cases h
      unfold UpstreamMapper.suspend
      cases paused <;> dsimp only <;> split
      · exact ⟨rfl, rfl, hassigned, fun _ h => (hkept h).elim⟩
      · exact ⟨rfl, rfl, hassigned, fun _ h => (hkept h).elim⟩
      · exact ⟨rfl, rfl, hpaused, fun _ h => (hkept h).elim⟩
      · exact ⟨rfl, rfl, hpaused, fun _ h => (hkept h).elim⟩

/-- The loop ends before the first mapper, and deletes suspended mappers only. -/
theorem collect_spec (fuel : ℕ) (l : List NonceMapper.State) (hfuel : l.length < fuel)
    {first : NonceMapper.State} (hfirst : l[0]? = some first) (hawake : first.suspended = 0) :
    ∃ l', collect fuel l = some l' ∧ l'[0]? = some first ∧ l' <+: l ∧
      ∀ (i : ℕ) m, l[i]? = some m → l'.length ≤ i → 2 ≤ m.suspended := by
  induction fuel generalizing l with
  | zero => omega
  | succ fuel ih =>
      rcases List.eq_nil_or_concat l with rfl | ⟨init, last, rfl⟩
      · cases hfirst
      rw [List.concat_eq_append] at hfuel hfirst ⊢
      rw [List.length_append, List.length_singleton] at hfuel
      unfold collect
      rw [List.getLast?_concat]
      by_cases hlast : 2 ≤ last.suspended
      · have hinit : init[0]? = some first := by
          rcases init with _ | ⟨a, init⟩
          · obtain rfl : last = first := by simpa using hfirst
            omega
          · simpa using hfirst
        obtain ⟨l', hcollect, hhead, hprefix, hdropped⟩ := ih init (by omega) hinit
        refine ⟨l', by simp [hlast, hcollect], hhead, hprefix.trans ⟨[last], rfl⟩, ?_⟩
        intro i m hm hi
        rcases Nat.lt_or_ge i init.length with hlt | hge
        · rw [List.getElem?_append_left hlt] at hm
          exact hdropped i m hm hi
        · have hend : i = init.length := by
            have := (List.getElem?_eq_some_iff.mp hm).1
            simp at this
            omega
          subst hend
          rw [List.getElem?_concat_length] at hm
          obtain rfl := Option.some.inj hm
          exact hlast
      · refine ⟨init ++ [last], by simp [hlast], hfirst, List.prefix_rfl, ?_⟩
        intro i m hm hi
        have := (List.getElem?_eq_some_iff.mp hm).1
        omega

theorem Routed.awake_of_used (h : Routed waiting s) {i : ℕ} (hm : s.upstreams[i]? = some m)
    (hused : NonceStorage.isUsed m.storage = true) : m.suspended = 0 := by
  obtain ⟨slot, -, hslot⟩ := List.any_eq_true.mp hused
  obtain ⟨miner, hminer, -⟩ := (h.assigned i m hm).registered slot (by simpa using hslot)
  exact h.awake i m hm (Or.inr ⟨miner, hminer⟩)

/-- Collecting garbage leaves every mapper in use as it is, at its index. -/
theorem Routed.gc (h : Routed waiting s) (paused : ℕ → Bool) :
    ∃ s' out, gc paused s = some (s', out) ∧ Routed waiting s' ∧
      ∀ (i : ℕ) m, s.upstreams[i]? = some m → NonceStorage.isUsed m.storage = true →
        s'.upstreams[i]? = some m := by
  have hmapped : (gcMappers paused s.upstreams).map Prod.fst =
      s.upstreams.map fun m => (NonceMapper.gc (paused m.id) m).1 := by
    rw [gcMappers, List.map_map]
    rfl
  have hcollected := @corresponds_map Collected (fun m => (NonceMapper.gc (paused m.id) m).1)
    (fun m => collected_gc (paused m.id) m) s.upstreams
  rw [← hmapped] at hcollected
  obtain ⟨first, hfirst⟩ : ∃ m, s.upstreams[0]? = some m := by
    rcases hups : s.upstreams with _ | ⟨m, rest⟩
    · exact absurd hups h.nonempty
    · exact ⟨m, rfl⟩
  have hkept : ∀ (i : ℕ) m, s.upstreams[i]? = some m → m.suspended = 0 →
      i = 0 ∨ NonceStorage.isUsed m.storage = true →
      ((gcMappers paused s.upstreams).map Prod.fst)[i]? = some m := by
    intro i m hm hawake hbusy
    obtain ⟨m', hm', hc⟩ := hcollected.forth i m hm
    rw [hm', hc.kept hawake (by rwa [h.indexed i m hm])]
  have hawake := h.awake 0 first hfirst (Or.inl rfl)
  obtain ⟨l', hcollect, hhead, hprefix, hdropped⟩ := collect_spec (s.upstreams.length + 1)
    ((gcMappers paused s.upstreams).map Prod.fst) (by simp [gcMappers])
    (hkept 0 first hfirst hawake (Or.inl rfl)) hawake
  have hback : ∀ (i : ℕ) m', l'[i]? = some m' → ∃ m, s.upstreams[i]? = some m ∧ Collected m m' := by
    intro i m' hm'
    obtain ⟨rest, hrest⟩ := hprefix
    apply hcollected.back i m'
    rw [← hrest, List.getElem?_append_left (List.getElem?_eq_some_iff.mp hm').1, hm']
  have hstays : ∀ (i : ℕ) m, s.upstreams[i]? = some m → NonceStorage.isUsed m.storage = true →
      l'[i]? = some m := by
    intro i m hm hused
    have hm₁ := hkept i m hm (h.awake_of_used hm hused) (Or.inr hused)
    by_cases hlt : i < l'.length
    · obtain ⟨rest, hrest⟩ := hprefix
      rwa [← hrest, List.getElem?_append_left hlt] at hm₁
    · have := hdropped i m hm₁ (by omega)
      have := h.awake_of_used hm hused
      omega
  refine ⟨_, _, by unfold NonceSplitter.gc; rw [hcollect]; rfl, ?_, hstays⟩
  constructor
  case indexed =>
    intro i m' hm'
    obtain ⟨m, hm, hc⟩ := hback i m' hm'
    rw [hc.id, h.indexed i m hm]
  case assigned =>
    intro i m' hm'
    obtain ⟨m, hm, hc⟩ := hback i m' hm'
    exact hc.assigned (h.assigned i m hm)
  case awake =>
    intro i m' hm' hbusy
    obtain ⟨m, hm, hc⟩ := hback i m' hm'
    have hawake := h.awake i m hm (by rwa [← hc.miners])
    rw [hc.kept hawake ?_, hawake]
    rcases hbusy with rfl | ⟨miner, hminer⟩
    · exact Or.inl (h.indexed 0 m hm)
    · exact Or.inr (isUsed_of_mem (h.assigned i m hm) (hc.miners ▸ hminer))
  case nonempty =>
    rintro hnil
    have hnil : l' = [] := hnil
    rw [hnil] at hhead
    cases hhead
  case routed =>
    intro miner c hc hlogged hroute hwait
    obtain ⟨i, m, hid, hm, hmem⟩ := h.routed miner c hc hlogged hroute hwait
    exact ⟨i, m, hid, hstays i m hm (isUsed_of_mem (h.assigned i m hm) hmem), hmem⟩
  case owned =>
    intro i m' hm' miner hmem
    obtain ⟨m, hm, hc⟩ := hback i m' hm'
    exact h.owned i m hm miner (hc.miners ▸ hmem)
  case unplaced => exact h.unplaced
  case numbered => exact h.numbered

end Collection

section Runs

variable {config : DonateStrategy.Config} {fresh : Fresh} {s : State}

/-- Every connection that has logged in is at its mapper. -/
abbrev Settled (s : State) : Prop := Routed (fun _ => False) s

theorem settled_initial : Settled (connect config fresh {}).1 := by
  have hat : ∀ {j : ℕ} {m₀}, (connect config fresh {}).1.upstreams[j]? = some m₀ →
      j = 0 ∧ m₀ = (UpstreamMapper.connect
        (NonceMapper.create config 0 fresh.index fresh.target)).1 := by
    intro j m₀ hj
    rcases j with _ | j
    · exact ⟨rfl, (Option.some.inj hj).symm⟩
    · simp [connect] at hj
  constructor
  case indexed =>
    intro j m₀ hj
    obtain ⟨rfl, rfl⟩ := hat hj
    rfl
  case assigned =>
    intro j m₀ hj
    obtain ⟨rfl, rfl⟩ := hat hj
    exact NonceStorage.assigned_initial fresh.index
  case awake =>
    intro j m₀ hj _
    obtain ⟨rfl, rfl⟩ := hat hj
    rfl
  case nonempty => exact List.cons_ne_nil _ _
  case routed =>
    intro miner c hc
    cases hc
  case owned =>
    intro j m₀ hj miner hmem
    obtain ⟨rfl, rfl⟩ := hat hj
    exact absurd hmem (Finset.notMem_empty miner)
  case unplaced =>
    intro miner c hc
    cases hc
  case numbered =>
    intro miner c hc
    cases hc

/-- A miner that logs in waits for its mapper. -/
theorem Routed.waits (h : Settled s) {miner : MinerId} {c : Connection}
    (hc : s.connections.find miner = some c) (hlogged : c.loggedIn = false) :
    Routed (· = miner)
      { s with connections := s.connections.insert miner { c with loggedIn := true } } := by
  have hnot : ∀ {i : ℕ} {m}, s.upstreams[i]? = some m → miner ∉ m.storage.miners :=
    fun hm => h.not_mem hc (Or.inl hlogged) hm
  constructor
  case indexed => exact h.indexed
  case assigned => exact h.assigned
  case awake => exact h.awake
  case nonempty => exact h.nonempty
  case routed =>
    intro other c' hc' hlogged' hroute hother
    rw [Table.find_insert_of_ne _ hother] at hc'
    exact h.routed other c' hc' hlogged' hroute not_false
  case owned =>
    intro i m hm other hmem
    have hother : other ≠ miner := fun heq => hnot hm (heq ▸ hmem)
    rw [Table.find_insert_of_ne _ hother]
    exact h.owned i m hm other hmem
  case unplaced =>
    intro other c' hc' hwait
    by_cases hother : other = miner
    · subst hother
      rw [Table.find_insert_self] at hc'
      obtain rfl := Option.some.inj hc'
      exact h.unplaced other c hc (Or.inl hlogged)
    · rw [Table.find_insert_of_ne _ hother] at hc'
      exact h.unplaced other c' hc' (Or.inl (hwait.resolve_right hother))
  case numbered =>
    intro other c' hc'
    by_cases hother : other = miner
    · subst hother
      exact h.numbered other c hc
    · rw [Table.find_insert_of_ne _ hother] at hc'
      exact h.numbered other c' hc'

theorem settled_connect (h : Settled s) :
    Settled (onDownstream config fresh .connect s).1 := by
  have hnew : s.connections.find s.nextId.succPNat = none := by
    cases hc : s.connections.find s.nextId.succPNat with
    | none => rfl
    | some c =>
        have := h.numbered _ c hc
        simp at this
  have hold : ∀ {other : MinerId} {c}, s.connections.find other = some c →
      other ≠ s.nextId.succPNat := by
    rintro other c hc rfl
    rw [hnew] at hc
    cases hc
  have hfind : ∀ other, other ≠ s.nextId.succPNat →
      (s.connections.insert s.nextId.succPNat {}).find other = s.connections.find other :=
    fun other hne => Table.find_insert_of_ne _ hne _
  constructor
  case indexed => exact h.indexed
  case assigned => exact h.assigned
  case awake => exact h.awake
  case nonempty => exact h.nonempty
  case routed =>
    intro other c' hc' hlogged hroute hwait
    change (s.connections.insert s.nextId.succPNat {}).find other = some c' at hc'
    by_cases hother : other = s.nextId.succPNat
    · subst hother
      rw [Table.find_insert_self] at hc'
      obtain rfl := Option.some.inj hc'
      cases hlogged
    · rw [hfind other hother] at hc'
      exact h.routed other c' hc' hlogged hroute hwait
  case owned =>
    intro i m hm other hmem
    obtain ⟨c, hc, hrest⟩ := h.owned i m hm other hmem
    exact ⟨c, (hfind other (hold hc)).trans hc, hrest⟩
  case unplaced =>
    intro other c' hc' hwait
    change (s.connections.insert s.nextId.succPNat {}).find other = some c' at hc'
    by_cases hother : other = s.nextId.succPNat
    · subst hother
      rw [Table.find_insert_self] at hc'
      obtain rfl := Option.some.inj hc'
      exact ⟨rfl, rfl⟩
    · rw [hfind other hother] at hc'
      exact h.unplaced other c' hc' hwait
  case numbered =>
    intro other c' hc'
    change (s.connections.insert s.nextId.succPNat {}).find other = some c' at hc'
    change (other : ℕ) ≤ s.nextId + 1
    by_cases hother : other = s.nextId.succPNat
    · rw [hother, Nat.succPNat_coe]
    · rw [hfind other hother] at hc'
      exact (h.numbered other c' hc').trans (Nat.le_succ _)

/-- A miner that donates, and was not registered, is none of the splitter's business. -/
theorem settled_donate (h : Settled s) {miner : MinerId} {c : Connection}
    (hc : s.connections.find miner = some c) (hlogged : c.loggedIn = false) (id : ℕ) :
    Settled { s with connections :=
      s.connections.insert miner { c with loggedIn := true, mapperId := id, routeId := 0 } } := by
  constructor
  case indexed => exact h.indexed
  case assigned => exact h.assigned
  case awake => exact h.awake
  case nonempty => exact h.nonempty
  case routed =>
    intro other c' hc' hlogged' hroute hwait
    by_cases hother : other = miner
    · subst hother
      rw [Table.find_insert_self] at hc'
      obtain rfl := Option.some.inj hc'
      cases hroute
    · rw [Table.find_insert_of_ne _ hother] at hc'
      exact h.routed other c' hc' hlogged' hroute hwait
  case owned =>
    intro i m hm other hmem
    have hother : other ≠ miner := fun heq => h.not_mem hc (Or.inl hlogged) hm (heq ▸ hmem)
    rw [Table.find_insert_of_ne _ hother]
    exact h.owned i m hm other hmem
  case unplaced =>
    intro other c' hc' hwait
    by_cases hother : other = miner
    · subst hother
      rw [Table.find_insert_self] at hc'
      obtain rfl := Option.some.inj hc'
      exact absurd (hwait.resolve_right not_false) (by simp)
    · rw [Table.find_insert_of_ne _ hother] at hc'
      exact h.unplaced other c' hc' hwait
  case numbered =>
    intro other c' hc'
    by_cases hother : other = miner
    · subst hother
      exact h.numbered other c hc
    · rw [Table.find_insert_of_ne _ hother] at hc'
      exact h.numbered other c' hc'

theorem find_erase_some {connections : Table MinerId Connection} {miner other : MinerId}
    {c : Connection} (h : (connections.erase miner).find other = some c) :
    other ≠ miner ∧ connections.find other = some c := by
  rw [Table.find_erase] at h
  split at h
  · cases h
  · next hne => exact ⟨hne, h⟩

/-- The connection of an unregistered miner may go. -/
theorem settled_erase (h : Settled s) {miner : MinerId}
    (hnot : ∀ (i : ℕ) m, s.upstreams[i]? = some m → miner ∉ m.storage.miners) :
    Settled { s with connections := s.connections.erase miner } := by
  constructor
  case indexed => exact h.indexed
  case assigned => exact h.assigned
  case awake => exact h.awake
  case nonempty => exact h.nonempty
  case routed => exact fun other c' hc' => h.routed other c' (find_erase_some hc').2
  case owned =>
    intro i m hm other hmem
    obtain ⟨c, hc, hrest⟩ := h.owned i m hm other hmem
    have hother : other ≠ miner := by
      rintro rfl
      exact hnot i m hm hmem
    exact ⟨c, (Table.find_erase_of_ne _ hother).trans hc, hrest⟩
  case unplaced => exact fun other c' hc' => h.unplaced other c' (find_erase_some hc').2
  case numbered => exact fun other c' hc' => h.numbered other c' (find_erase_some hc').2

/-- A mapper forgets its miner together with the connection. -/
theorem settled_remove (h : Settled s) {miner : MinerId} {i : ℕ} {m : NonceMapper.State}
    (hm : s.upstreams[i]? = some m) (hmem : miner ∈ m.storage.miners) :
    Settled { s with
      upstreams := s.upstreams.set i (UpstreamMapper.remove NonceStorage.ops miner m)
      connections := s.connections.erase miner } := by
  have hlt : i < s.upstreams.length := (List.getElem?_eq_some_iff.mp hm).1
  have hminers : (UpstreamMapper.remove NonceStorage.ops miner m).storage.miners =
      m.storage.miners.erase miner := rfl
  have hat : ∀ {j : ℕ} {m₀},
      (s.upstreams.set i (UpstreamMapper.remove NonceStorage.ops miner m))[j]? = some m₀ →
      (j = i ∧ m₀ = UpstreamMapper.remove NonceStorage.ops miner m) ∨
        (j ≠ i ∧ s.upstreams[j]? = some m₀) := by
    intro j m₀ hj
    by_cases hji : j = i
    · subst hji
      exact Or.inl ⟨rfl, by simpa [hlt, eq_comm] using hj⟩
    · rw [List.getElem?_set_ne (Ne.symm hji)] at hj
      exact Or.inr ⟨hji, hj⟩
  constructor
  case indexed =>
    intro j m₀ hj
    rcases hat hj with ⟨rfl, rfl⟩ | ⟨-, hj⟩
    · exact h.indexed j m hm
    · exact h.indexed j m₀ hj
  case assigned =>
    intro j m₀ hj
    rcases hat hj with ⟨rfl, rfl⟩ | ⟨-, hj⟩
    · exact (h.assigned j m hm).remove hmem
    · exact h.assigned j m₀ hj
  case awake =>
    intro j m₀ hj hbusy
    rcases hat hj with ⟨rfl, rfl⟩ | ⟨-, hj⟩
    · exact h.awake j m hm (Or.inr ⟨miner, hmem⟩)
    · exact h.awake j m₀ hj hbusy
  case nonempty =>
    intro hnil
    rw [List.set_eq_nil_iff] at hnil
    exact h.nonempty hnil
  case routed =>
    intro other c' hc' hlogged hroute hwait
    obtain ⟨hother, hc'⟩ := find_erase_some hc'
    obtain ⟨j, m₀, hid, hm₀, hmem₀⟩ := h.routed other c' hc' hlogged hroute hwait
    by_cases hji : j = i
    · subst hji
      obtain rfl := Option.some.inj (hm.symm.trans hm₀)
      refine ⟨j, UpstreamMapper.remove NonceStorage.ops miner m, hid, by simp [hlt], ?_⟩
      rw [hminers]
      exact Finset.mem_erase.mpr ⟨hother, hmem₀⟩
    · exact ⟨j, m₀, hid, by rw [List.getElem?_set_ne (Ne.symm hji), hm₀], hmem₀⟩
  case owned =>
    intro j m₀ hj other hmem₀
    have hregistered : other ≠ miner ∧ ∃ m₁, s.upstreams[j]? = some m₁ ∧
        other ∈ m₁.storage.miners := by
      rcases hat hj with ⟨rfl, rfl⟩ | ⟨hji, hj'⟩
      · rw [hminers] at hmem₀
        obtain ⟨hother, hmem₀⟩ := Finset.mem_erase.mp hmem₀
        exact ⟨hother, m, hm, hmem₀⟩
      · refine ⟨?_, m₀, hj', hmem₀⟩
        rintro rfl
        obtain ⟨c₁, hc₁, -, -, hid₁⟩ := h.owned i m hm other hmem
        obtain ⟨c₂, hc₂, -, -, hid₂⟩ := h.owned j m₀ hj' other hmem₀
        obtain rfl := Option.some.inj (hc₁.symm.trans hc₂)
        exact hji (by omega)
    obtain ⟨hother, m₁, hm₁, hmem₁⟩ := hregistered
    obtain ⟨c, hc, hrest⟩ := h.owned j m₁ hm₁ other hmem₁
    exact ⟨c, (Table.find_erase_of_ne _ hother).trans hc, hrest⟩
  case unplaced => exact fun other c' hc' => h.unplaced other c' (find_erase_some hc').2
  case numbered => exact fun other c' hc' => h.numbered other c' (find_erase_some hc').2

theorem settled_close (h : Settled s) (miner : MinerId) :
    Settled (onDownstream config fresh (.close miner) s).1 := by
  unfold onDownstream
  dsimp only
  split
  · next c hc =>
    by_cases hskip : (c.mapperId < 0 || c.routeId ≠ -1) = true
    · have hnot : ∀ (i : ℕ) m, s.upstreams[i]? = some m → miner ∉ m.storage.miners := by
        intro i m hm hmem
        obtain ⟨c', hc', -, hroute, hid⟩ := h.owned i m hm miner hmem
        obtain rfl := Option.some.inj (hc.symm.trans hc')
        simp [hroute, hid] at hskip
        omega
      simp only [remove, hskip, if_true, Handler.skip]
      exact settled_erase h hnot
    · have hplaced : 0 ≤ c.mapperId ∧ c.routeId = -1 := by
        simp only [Bool.or_eq_true, decide_eq_true_eq, not_or, not_not] at hskip
        exact ⟨by omega, hskip.2⟩
      have hlogged : c.loggedIn = true := by
        by_contra hlogged
        have := (h.unplaced miner c hc (Or.inl (by simpa using hlogged))).1
        omega
      obtain ⟨i, m, hid, hm, hmem⟩ := h.routed miner c hc hlogged hplaced.2 not_false
      have hid : c.mapperId.toNat = i := by omega
      simp only [remove, hskip, Bool.false_eq_true, if_false, atMapper, hid, hm]
      exact settled_remove h hm hmem
  · exact h

theorem settled_login (h : Settled s) (miner : MinerId) (donateTo : Option ℕ) :
    Settled (onDownstream config fresh (.login miner donateTo) s).1 := by
  unfold onDownstream
  dsimp only
  split
  · next c hc =>
    by_cases hlogged : c.loggedIn = true
    · rw [if_pos hlogged]
      exact h
    · rw [if_neg hlogged]
      have hlogged : c.loggedIn = false := by simpa using hlogged
      cases donateTo with
      | some id => exact settled_donate h hc hlogged id
      | none =>
          obtain ⟨s', out, hlogin, hsettled, -⟩ := @Routed.login config fresh _ miner _
            (h.waits hc hlogged) (Table.find_insert_self _ _ _) rfl 0
          dsimp only
          rw [hlogin]
          exact hsettled
  · exact h

theorem settled_step (h : Settled s) (e : Event) : Settled (step config e s).1 := by
  cases e with
  | downstream event fresh =>
      cases event with
      | connect => exact @settled_connect config fresh s h
      | login miner donateTo => exact settled_login h miner donateTo
      | submit miner request answer =>
          unfold step onDownstream
          dsimp only
          split
          · split
            · exact h.submit _ _ _
            · exact h
          · exact h
      | close miner => exact @settled_close config fresh s h miner
  | pool id event => exact h.atMapper (keeps_onPoolEvent event)
  | gc paused =>
      obtain ⟨s', out, hgc, hsettled, -⟩ := h.gc paused
      unfold step
      dsimp only
      rw [hgc]
      exact hsettled
  | tick => exact h.tick

theorem settled (config : DonateStrategy.Config) (fresh : Fresh) (es : ℕ → Event) (k : ℕ) :
    Settled ((machine config fresh).state es k) :=
  @Machine.invariant _ _ _ (machine config fresh) es Settled settled_initial
    (fun _ e h => settled_step h e) k

/-- In every run: mappers are stored under their ids; a miner that has logged in and does not
donate is registered at an awake mapper of its index; collecting garbage ends and leaves every
mapper in use alone; and a login ends with the miner at such a mapper. -/
theorem nicehash_routing (config : DonateStrategy.Config) (fresh : Fresh) (es : ℕ → Event)
    (k : ℕ) :
    let s := (machine config fresh).state es k
    let placed := fun (s : State) (miner : MinerId) (c : Connection) =>
      ∃ (i : ℕ) (m : NonceMapper.State), c.mapperId = i ∧ s.upstreams[i]? = some m ∧
        isSuspended m = false ∧ NonceStorage.miner miner m.storage = some miner
    (∀ (i : ℕ) m, s.upstreams[i]? = some m → m.id = i) ∧
    (∀ miner c, s.connections.find miner = some c → c.loggedIn = true → c.routeId = -1 →
      placed s miner c) ∧
    (∀ paused, ∃ s' out, gc paused s = some (s', out) ∧
      ∀ (i : ℕ) m, s.upstreams[i]? = some m → NonceStorage.isUsed m.storage = true →
        s'.upstreams[i]? = some m) ∧
    (∀ miner c fresh fuel, s.connections.find miner = some c → c.loggedIn = false → 2 ≤ fuel →
      ∃ s' out c', login config fresh miner fuel
          { s with connections := s.connections.insert miner { c with loggedIn := true } } =
            some (s', out) ∧
        s'.connections.find miner = some c' ∧ c'.loggedIn = true ∧ placed s' miner c') := by
  intro s placed
  have h : Settled s := settled config fresh es k
  have hplaced : ∀ {s : State}, Settled s → ∀ miner c, s.connections.find miner = some c →
      c.loggedIn = true → c.routeId = -1 → placed s miner c := by
    intro s h miner c hc hlogged hroute
    obtain ⟨i, m, hid, hm, hmem⟩ := h.routed miner c hc hlogged hroute not_false
    have hawake := h.awake i m hm (Or.inr ⟨miner, hmem⟩)
    exact ⟨i, m, hid, hm, by simp [isSuspended, hawake], by simp [NonceStorage.miner, hmem]⟩
  refine ⟨h.indexed, hplaced h, fun paused => ?_, fun miner c fresh fuel hc hlogged hfuel => ?_⟩
  · obtain ⟨s', out, hgc, -, hkept⟩ := h.gc paused
    exact ⟨s', out, hgc, hkept⟩
  · obtain ⟨fuel, rfl⟩ := Nat.exists_eq_add_of_le' hfuel
    obtain ⟨s', out, hlogin, hsettled, id, hid⟩ := @Routed.login config fresh _ miner _
      (h.waits hc hlogged) (Table.find_insert_self _ _ _) rfl fuel
    have hroute := (h.unplaced miner c hc (Or.inl hlogged)).2
    exact ⟨s', out, _, hlogin, hid, rfl, hplaced hsettled miner _ hid rfl hroute⟩

end Runs

end XmrigProxy.NonceSplitter
