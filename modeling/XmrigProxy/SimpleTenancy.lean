import Mathlib.Logic.Function.Basic
import XmrigProxy.SimpleOwnership

/-! Who mines, donates or has yet to log in follows from the events alone. Every miner that mines
has a mapper to itself from its login until it leaves, and no other miner is held. -/
namespace XmrigProxy.SimpleSplitter

section Standings

inductive Standing where
  | connected | mining | donating
  deriving DecidableEq

/-- What the events say: how many connections there were, how long mappers may rest, and what the
miners that are there do. -/
structure Ledger where
  connects : ℕ := 0
  reuseTimeout : ℕ
  standing : MinerId → Option Standing := fun _ => none

/-- Connections are numbered from one; a miner logs in once, and is gone when it closes. -/
def Ledger.note (l : Ledger) : Event → Ledger
  | .downstream .connect =>
      { l with
        connects := l.connects + 1
        standing := Function.update l.standing l.connects.succPNat (some .connected) }
  | .downstream (.login miner donateTo) =>
      if l.standing miner = some .connected then
        { l with
          standing := Function.update l.standing miner
            (some (if donateTo.isSome then .donating else .mining)) }
      else l
  | .downstream (.close miner) =>
      { l with standing := Function.update l.standing miner none }
  | .configChanged reuseTimeout _ => { l with reuseTimeout }
  | _ => l

def ledger (reuseTimeout : ℕ) (es : ℕ → ℕ × Event) : ℕ → Ledger
  | 0 => { reuseTimeout }
  | k + 1 => (ledger reuseTimeout es k).note (es k).2

/-- What the splitter takes a connection for. -/
def standing (c : Connection) : Standing :=
  if c.loggedIn then if c.routeId = -1 then .mining else .donating else .connected

theorem standing_mining {c : Connection} :
    standing c = .mining ↔ c.loggedIn = true ∧ c.routeId = -1 := by
  unfold standing
  cases c.loggedIn with
  | true => by_cases hroute : c.routeId = -1 <;> simp [hroute]
  | false => simp

theorem standing_connected {c : Connection} : standing c = .connected ↔ c.loggedIn = false := by
  unfold standing
  cases c.loggedIn with
  | true => by_cases hroute : c.routeId = -1 <;> simp [hroute]
  | false => simp

/-- The splitter knows what the events say. -/
structure Knows (l : Ledger) (s : State) : Prop where
  connects : s.nextId = l.connects
  reuseTimeout : s.reuseTimeout = l.reuseTimeout
  standing : ∀ miner, (s.connections.find miner).map standing = l.standing miner

/-- Mappers were at work. -/
structure SameMiners (s s' : State) : Prop where
  connections : s'.connections = s.connections
  nextId : s'.nextId = s.nextId
  reuseTimeout : s'.reuseTimeout = s.reuseTimeout

variable {l : Ledger} {s s' : State} {tr : List Output} {miner : MinerId} {c : Connection}

theorem SameMiners.refl (s : State) : SameMiners s s := ⟨rfl, rfl, rfl⟩

theorem SameMiners.trans {s'' : State} (h : SameMiners s s') (h' : SameMiners s' s'') :
    SameMiners s s'' :=
  ⟨h'.connections.trans h.connections, h'.nextId.trans h.nextId,
    h'.reuseTimeout.trans h.reuseTimeout⟩

theorem Knows.same (h : Knows l s) (hsame : SameMiners s s') : Knows l s' := by
  refine ⟨?_, ?_, fun miner => ?_⟩
  · rw [hsame.nextId, h.connects]
  · rw [hsame.reuseTimeout, h.reuseTimeout]
  · rw [hsame.connections, h.standing miner]

theorem Knows.find (h : Knows l s) {what : Standing} (hl : l.standing miner = some what) :
    ∃ c, s.connections.find miner = some c ∧ SimpleSplitter.standing c = what := by
  rw [← h.standing miner] at hl
  exact Option.map_eq_some_iff.mp hl

theorem sameMiners_atMapper (id : ℕ) (f : Handler SimpleMapper.State SimpleMapper.Output)
    (s : State) : SameMiners s (atMapper id f s).1 := by
  unfold atMapper
  split
  · exact SameMiners.refl s
  · exact ⟨rfl, rfl, rfl⟩

theorem sameMiners_seq {f g : Handler State Output} (hf : ∀ s, SameMiners s (f s).1)
    (hg : ∀ s, SameMiners s (g s).1) (s : State) : SameMiners s (Handler.seq f g s).1 :=
  (hf s).trans (hg _)

theorem sameMiners_forEach {f : ℕ → Handler State Output}
    (hf : ∀ id s, SameMiners s (f id s).1) (ids : List ℕ) (s : State) :
    SameMiners s (Handler.forEach f ids s).1 := by
  induction ids generalizing s with
  | nil => exact SameMiners.refl s
  | cons id rest ih => exact (hf id s).trans (ih _)

theorem sameMiners_stop (id : ℕ) (s : State) : SameMiners s (stop id s).1 := by
  have hout : SameMiners s (removeUpstream id (removeIdle id s)) := ⟨rfl, rfl, rfl⟩
  exact hout.trans (sameMiners_seq (fun _ => ⟨rfl, rfl, rfl⟩)
    (sameMiners_atMapper id SimpleMapper.stop) _)

theorem sameMiners_tick (s : State) : SameMiners s (tick s).1 := by
  refine sameMiners_seq (sameMiners_forEach (fun _ _ => ⟨rfl, rfl, rfl⟩) s.released) (fun s => ?_) s
  have hticked : SameMiners s { tickMappers s with released := expired s } := ⟨rfl, rfl, rfl⟩
  exact hticked.trans (sameMiners_forEach sameMiners_stop _ _)

theorem sameMiners_remove (c : Connection) (s : State) : SameMiners s (remove c s).1 := by
  unfold remove
  dsimp only
  split
  · exact SameMiners.refl s
  · refine sameMiners_seq (sameMiners_atMapper _ _) (fun s => ?_) s
    split
    · exact sameMiners_seq (sameMiners_stop _) (fun _ => ⟨rfl, rfl, rfl⟩) s
    · exact ⟨rfl, rfl, rfl⟩

theorem sameMiners_submit (now : ℕ) (event : SubmitEvent) (answer : ℤ) (c : Connection)
    (s : State) : SameMiners s (submit now event answer c s).1 := by
  unfold submit
  dsimp only
  split
  · exact SameMiners.refl s
  split
  · exact SameMiners.refl s
  · exact sameMiners_atMapper _ _ s

/-- The miner that logs in is told where it mines; nothing else changes for the miners. -/
theorem login_connections (miner : MinerId) (s : State) :
    ∃ id : ℕ, SameMiners (assign miner id s) (login miner s).1 := by
  unfold login
  cases reusable s with
  | some id =>
      have htaken : SameMiners (assign miner id s) (assign miner id (removeIdle id s)) :=
        ⟨rfl, rfl, rfl⟩
      exact ⟨id, htaken.trans (sameMiners_atMapper id _ _)⟩
  | none =>
      have hmade : SameMiners (assign miner s.sequence s) (assign miner s.sequence
          (withMapper s)) := ⟨rfl, rfl, rfl⟩
      exact ⟨s.sequence, hmade.trans (sameMiners_atMapper s.sequence _ _)⟩

theorem Knows.assign (h : Knows l s) (miner : MinerId) (id : ℕ) : Knows l (assign miner id s) := by
  refine ⟨h.connects, h.reuseTimeout, fun other => ?_⟩
  rw [← h.standing other]
  change ((s.connections.modify miner fun c => { c with mapperId := id }).find other).map
    SimpleSplitter.standing = _
  rw [Table.find_modify]
  split
  · next heq =>
      rw [heq, Option.map_map]
      rfl
  · rfl

theorem Knows.login (h : Knows l s) (miner : MinerId) : Knows l (login miner s).1 := by
  obtain ⟨id, hsame⟩ := login_connections miner s
  exact (h.assign miner id).same hsame

/-- A connection is noted as what the splitter takes it for. -/
theorem Knows.insert (h : Knows l s) (miner : MinerId) (c : Connection) :
    Knows { l with standing := Function.update l.standing miner (some (SimpleSplitter.standing c)) }
      { s with connections := s.connections.insert miner c } := by
  refine ⟨h.connects, h.reuseTimeout, fun other => ?_⟩
  dsimp only
  rw [Table.find_insert, Function.update_apply]
  split
  · rfl
  · exact h.standing other

theorem Knows.onLogin (h : Knows l s) (howned : Owned (fun _ => False) s tr) (now : ℕ)
    (miner : MinerId) (donateTo : Option ℕ) :
    Knows (l.note (.downstream (.login miner donateTo)))
      (onDownstream now (.login miner donateTo) s).1 := by
  have hnoted := h.standing miner
  unfold onDownstream Ledger.note
  dsimp only
  cases hc : s.connections.find miner with
  | some c =>
      rw [hc] at hnoted
      dsimp only
      cases hlogged : c.loggedIn with
      | true =>
          have hother : l.standing miner ≠ some .connected := by
            rw [← hnoted]
            intro heq
            rw [standing_connected.mp (Option.some.inj heq)] at hlogged
            cases hlogged
          rw [if_neg hother]
          exact h
      | false =>
          rw [if_pos (hnoted.symm.trans (congrArg some (standing_connected.mpr hlogged)))]
          cases donateTo with
          | some id =>
              exact h.insert miner { c with loggedIn := true, mapperId := id, routeId := 0 }
          | none =>
              have hmining : SimpleSplitter.standing { c with loggedIn := true } = .mining :=
                standing_mining.mpr ⟨rfl, (howned.unplaced miner c hc hlogged).2⟩
              have hinsert := h.insert miner { c with loggedIn := true }
              rw [hmining] at hinsert
              exact hinsert.login miner
  | none =>
      rw [hc] at hnoted
      have hother : l.standing miner ≠ some .connected := by
        rw [← hnoted]
        simp
      rw [if_neg hother]
      exact h

theorem Knows.onClose (h : Knows l s) (now : ℕ) (miner : MinerId) :
    Knows (l.note (.downstream (.close miner))) (onDownstream now (.close miner) s).1 := by
  unfold onDownstream Ledger.note
  dsimp only
  split
  · next c hc =>
      have hleft := h.same (sameMiners_remove c s)
      refine ⟨hleft.connects, hleft.reuseTimeout, fun other => ?_⟩
      dsimp only
      rw [Table.find_erase, Function.update_apply]
      split
      · rfl
      · exact hleft.standing other
  · next hc =>
      refine ⟨h.connects, h.reuseTimeout, fun other => ?_⟩
      dsimp only
      rw [Function.update_apply]
      split
      · next heq =>
          rw [heq, hc]
          rfl
      · exact h.standing other

theorem Knows.step (h : Knows l s) (howned : Owned (fun _ => False) s tr) (now : ℕ) (e : Event) :
    Knows (l.note e) (step now e s).1 := by
  cases e with
  | downstream event =>
      cases event with
      | connect =>
          have hinsert := h.insert s.nextId.succPNat {}
          refine ⟨congrArg (· + 1) h.connects, h.reuseTimeout, fun miner => ?_⟩
          apply (hinsert.standing miner).trans
          rw [h.connects]
          rfl
      | login miner donateTo => exact h.onLogin howned now miner donateTo
      | submit miner request answer =>
          apply h.same
          change SameMiners s (onDownstream now (.submit miner request answer) s).1
          unfold onDownstream
          dsimp only
          split
          · split
            · exact sameMiners_submit now _ answer _ s
            · exact SameMiners.refl s
          · exact SameMiners.refl s
      | close miner => exact h.onClose now miner
  | pool id event =>
      apply h.same
      change SameMiners s (if s.mappers.contains id then
        atMapper id (SimpleMapper.onPoolEvent now event) s else (s, [])).1
      split
      · exact sameMiners_atMapper id _ s
      · exact SameMiners.refl s
  | tick => exact h.same (sameMiners_tick s)
  | configChanged reuseTimeout poolsChanged =>
      have hset : Knows (l.note (.configChanged reuseTimeout poolsChanged))
          { s with reuseTimeout } :=
        ⟨h.connects, rfl, h.standing⟩
      apply hset.same
      change SameMiners _ (onConfigChanged reuseTimeout poolsChanged s).1
      unfold onConfigChanged
      dsimp only
      split
      · exact sameMiners_forEach (fun id => sameMiners_atMapper id SimpleMapper.reload) _ _
      · exact SameMiners.refl _

theorem knows_run (reuseTimeout : ℕ) (es : ℕ → ℕ × Event) (k : ℕ) :
    Knows (ledger reuseTimeout es k) ((machine reuseTimeout).state es k) := by
  induction k with
  | zero => exact ⟨rfl, rfl, fun _ => rfl⟩
  | succ k ih => exact ih.step (owned_run reuseTimeout es k) (es k).1 (es k).2

end Standings

section Tenancies

variable {s : State} {tr : List Output} {miner : MinerId} {id : ℕ}

/-- The miner is connected, and the mapper with this id is registered, stored under its id and
holds the miner. -/
def Owns (s : State) (miner : MinerId) (id : ℕ) : Prop :=
  ∃ c m, s.connections.find miner = some c ∧ c.mapperId = id ∧ id ∈ s.upstreams ∧
    s.mappers.find id = some m ∧ m.id = id ∧ m.miner = some miner

theorem Owns.mapper (h : Owns s miner id) {m : SimpleMapper.State}
    (hm : s.mappers.find id = some m) : m.miner = some miner := by
  obtain ⟨-, m', -, -, -, hm', -, hheld⟩ := h
  rw [Option.some.inj (hm.symm.trans hm'), hheld]

theorem Owns.unique {id' : ℕ} (h : Owns s miner id) (h' : Owns s miner id') : id' = id := by
  obtain ⟨c, -, hc, hid, -⟩ := h
  obtain ⟨c', -, hc', hid', -⟩ := h'
  obtain rfl := Option.some.inj (hc.symm.trans hc')
  omega

theorem Owns.apart {miner' : MinerId} {c c' : Connection} (h : Owns s miner id)
    {id' : ℕ} (h' : Owns s miner' id') (hc : s.connections.find miner = some c)
    (hc' : s.connections.find miner' = some c') (hsame : c.mapperId = c'.mapperId) :
    miner = miner' := by
  obtain ⟨c₀, m, hc₀, hid, -, hm, -, hheld⟩ := h
  obtain ⟨c₁, m', hc₁, hid', -, hm', -, hheld'⟩ := h'
  obtain rfl := Option.some.inj (hc.symm.trans hc₀)
  obtain rfl := Option.some.inj (hc'.symm.trans hc₁)
  obtain rfl : id = id' := by omega
  obtain rfl := Option.some.inj (hm.symm.trans hm')
  exact Option.some.inj (hheld.symm.trans hheld')

theorem Owned.owns (h : Owned (fun _ => False) s tr) {m : SimpleMapper.State}
    (hm : s.mappers.find id = some m) (hheld : m.miner = some miner) : Owns s miner id := by
  obtain ⟨c, hc, -, -, hplace⟩ := h.holder id m miner hm hheld
  refine ⟨c, m, hc, hplace, (h.alive id m hm).resolve_right fun hreleased => ?_, hm,
    (h.indexed id m hm).1, hheld⟩
  obtain ⟨-, m', hm', hnone⟩ := h.released id hreleased
  rw [Option.some.inj (hm'.symm.trans hm), hheld] at hnone
  cases hnone

theorem Owned.owner {l : Ledger} (h : Owned (fun _ => False) s tr) (hknows : Knows l s)
    (hmining : l.standing miner = some .mining) : ∃ id, Owns s miner id := by
  obtain ⟨c, hc, hstanding⟩ := hknows.find hmining
  obtain ⟨hlogged, hroute⟩ := standing_mining.mp hstanding
  obtain ⟨id, m, -, -, hm, hheld⟩ := h.owned miner c hc hlogged hroute (fun hwait => hwait)
  exact ⟨id, h.owns hm hheld⟩

/-- A stopped mapper that is still there waits to be deleted. -/
theorem Owned.stopped_released (h : Owned (fun _ => False) s tr) (hid : id ∈ stoppedIds tr)
    {m : SimpleMapper.State} (hm : s.mappers.find id = some m) : id ∈ s.released :=
  (h.alive id m hm).resolve_left ((h.stopped id).mp hid).2

theorem Owned.stopped_free (h : Owned (fun _ => False) s tr) (hid : id ∈ stoppedIds tr)
    {m : SimpleMapper.State} (hm : s.mappers.find id = some m) : m.miner = none := by
  obtain ⟨-, m', hm', hnone⟩ := h.released id (h.stopped_released hid hm)
  rw [Option.some.inj (hm.symm.trans hm'), hnone]

theorem Owned.deleted_stopped (h : Owned (fun _ => False) s tr) (hid : id ∈ deletedIds tr) :
    id ∈ stoppedIds tr := by
  obtain ⟨hlt, hnone⟩ := (h.deleted id).mp hid
  refine (h.stopped id).mpr ⟨hlt, fun hup => ?_⟩
  obtain ⟨m, hm⟩ := h.registered id hup
  rw [hnone] at hm
  cases hm

/-- What waits to be deleted is deleted at the next tick. -/
theorem released_deleted (h : id ∈ s.released) : id ∈ deletedIds (tick s).2 := by
  unfold tick Handler.seq
  rw [forEach_delete, deletedIds_append]
  refine List.mem_append_left _ (List.mem_filterMap.mpr ?_)
  exact ⟨.deleted id, List.mem_map_of_mem h, rfl⟩

/-- The mapper of a miner that closes is stopped at once, or kept for the next one. -/
theorem Owned.closed (h : Owned (fun _ => False) s tr) (hown : Owns s miner id) (now : ℕ) :
    (s.reuseTimeout = 0 → id ∈ stoppedIds (onDownstream now (.close miner) s).2) ∧
      (s.reuseTimeout ≠ 0 → id ∈ (onDownstream now (.close miner) s).1.idles) := by
  obtain ⟨c, m, hc, hplace, hup, hm, -, hheld⟩ := hown
  obtain ⟨c', hc', -, hroute, -⟩ := h.holder id m miner hm hheld
  obtain rfl := Option.some.inj (hc.symm.trans hc')
  unfold onDownstream
  dsimp only
  rw [hc]
  dsimp only
  rw [remove_spec hplace hroute hup hm]
  constructor
  · intro hreuse
    rw [if_pos hreuse, (stop_observed id _).1]
    exact List.mem_singleton_self id
  · intro hreuse
    rw [if_neg hreuse]
    exact Finset.mem_insert_self id s.idles

/-- At a tick, a registered mapper without a miner has rested for too long or rests on. -/
theorem rested_tick (h : Owned (fun _ => False) s tr) {m : SimpleMapper.State}
    (hup : id ∈ s.upstreams) (hm : s.mappers.find id = some m) (hfree : m.miner = none) :
    (s.reuseTimeout < m.idleTime → id ∈ stoppedIds (tick s).2) ∧
      (m.idleTime ≤ s.reuseTimeout → id ∈ (tick s).1.upstreams ∧
        ∃ m', (tick s).1.mappers.find id = some m' ∧ m'.idleTime = m.idleTime + 1) := by
  let s₁ : State := { s with mappers := s.released.foldl Table.erase s.mappers, released := [] }
  have hcollected : Owned (fun _ => False) s₁ (tr ++ s.released.map .deleted) := h.collect
  have hm₁ : s₁.mappers.find id = some m := by
    apply (find_foldl_erase _ _ _).trans
    rw [if_neg fun hreleased => (h.released id hreleased).1 hup, hm]
  have hexpired : id ∈ expired s₁ ↔ s.reuseTimeout < m.idleTime := by
    unfold expired
    rw [List.mem_filter, Finset.mem_sort, hm₁, Option.any_some, decide_eq_true_iff]
    exact and_iff_right hup
  obtain ⟨out, hrun, hstopped, -, -⟩ := hcollected.sweep_spec
  let swept := Handler.forEach stop (expired s₁) { tickMappers s₁ with released := expired s₁ }
  have htick : tick s = (swept.1, s.released.map .deleted ++ swept.2) := by
    unfold tick Handler.seq
    rw [forEach_delete]
    rfl
  rw [htick, show swept = _ from hrun]
  constructor
  · intro hlong
    rw [stoppedIds_append, hstopped]
    exact List.mem_append_right _ (hexpired.mpr hlong)
  · intro hshort
    have hkept : id ∉ expired s₁ := fun hid => by
      have := hexpired.mp hid
      omega
    refine ⟨Finset.mem_sdiff.mpr ⟨hup, by simpa using hkept⟩, SimpleMapper.tick m, ?_, ?_⟩
    · change (tickMappers s₁).mappers.find id = _
      unfold tickMappers
      rw [Table.find_map, hm₁, Option.map_some, if_pos ⟨hup, hkept⟩]
    · simp [SimpleMapper.tick, hfree]

/-- What holds of mappers and miners after `k` steps, and in the step that follows. -/
structure Tenancy (reuseTimeout : ℕ) (es : ℕ → ℕ × Event) (k : ℕ) (l : Ledger) (s : State)
    (tr : List Output) : Prop where
  owner : ∀ miner, l.standing miner = some .mining → ∃ id, Owns s miner id ∧
    ∀ (id' : ℕ) m', s.mappers.find id' = some m' → m'.miner = some miner → id' = id
  tenant : ∀ (id : ℕ) m miner, s.mappers.find id = some m → m.miner = some miner →
    l.standing miner = some .mining ∧ Owns s miner id
  apart : ∀ miner miner' c c', l.standing miner = some .mining →
    l.standing miner' = some .mining → s.connections.find miner = some c →
      s.connections.find miner' = some c' → c.mapperId = c'.mapperId → miner = miner'
  idle : ∀ id ∈ s.idles, id ∈ s.upstreams ∧ ∃ m, s.mappers.find id = some m ∧ m.miner = none
  /-- Who closes leaves its mapper stopped, or idle for as long as the configuration says. -/
  closed : ∀ miner id, (es k).2 = .downstream (.close miner) → Owns s miner id →
    (l.reuseTimeout = 0 → .stopped id ∈ (machine reuseTimeout).emitted es k) ∧
      (l.reuseTimeout ≠ 0 → id ∈ ((machine reuseTimeout).state es (k + 1)).idles)
  rested : ∀ id m, (es k).2 = .tick → id ∈ s.upstreams → s.mappers.find id = some m →
    m.miner = none →
      (l.reuseTimeout < m.idleTime → .stopped id ∈ (machine reuseTimeout).emitted es k) ∧
      (m.idleTime ≤ l.reuseTimeout → ∃ m', m'.idleTime = m.idleTime + 1 ∧
        ((machine reuseTimeout).state es (k + 1)).mappers.find id = some m')
  stoppedOnce : (stoppedIds tr).Nodup
  stopped : ∀ id, id ∈ stoppedIds tr ↔ id < s.sequence ∧ id ∉ s.upstreams
  stoppedFree : ∀ id ∈ stoppedIds tr, ∀ m, s.mappers.find id = some m → m.miner = none
  deletedOnce : (deletedIds tr).Nodup
  deleted : ∀ id, id ∈ deletedIds tr ↔ id < s.sequence ∧ s.mappers.find id = none
  deletedStopped : ∀ id ∈ deletedIds tr, id ∈ stoppedIds tr
  /-- What is deleted was stopped before, and held no miner. -/
  deletedFree : ∀ id, .deleted id ∈ (machine reuseTimeout).emitted es k →
    id ∈ stoppedIds tr ∧ ∃ m, s.mappers.find id = some m ∧ m.miner = none
  deletedNext : ∀ id ∈ stoppedIds tr, (es k).2 = .tick →
    id ∈ deletedIds ((machine reuseTimeout).trace es (k + 1))
  found : ∀ o ∈ tr, isDangling o = false
  work : EntropyFresh es → ∀ id id' write write', .mapper id (.setJob write) ∈ tr →
    .mapper id' (.setJob write') ∈ tr → write.job.templateEntropy ≠ "" →
      write.job.templateEntropy = write'.job.templateEntropy → write.miner = write'.miner

theorem mem_stoppedIds {tr : List Output} : id ∈ stoppedIds tr ↔ .stopped id ∈ tr := by
  unfold stoppedIds
  rw [List.mem_filterMap]
  constructor
  · rintro ⟨o, ho, heq⟩
    cases o with
    | stopped id' =>
        obtain rfl := Option.some.inj heq
        exact ho
    | _ => cases heq
  · exact fun h => ⟨_, h, rfl⟩

/-- In every run, every miner that mines by what the events say has a registered mapper to itself,
and nobody else is held. A mapper whose miner closes is stopped or kept idle, and stopped once it
rested for too long; it is stopped once, and deleted once at the next tick, never with a miner;
no deleted mapper is looked up; and as long as template entropy does not repeat, none of it goes
to two miners. -/
theorem simple_ownership (reuseTimeout : ℕ) (es : ℕ → ℕ × Event) (k : ℕ) :
    Tenancy reuseTimeout es k (ledger reuseTimeout es k) ((machine reuseTimeout).state es k)
      ((machine reuseTimeout).trace es k) := by
  let s := (machine reuseTimeout).state es k
  let tr := (machine reuseTimeout).trace es k
  have h : Owned (fun _ => False) s tr := owned_run reuseTimeout es k
  have hknows : Knows (ledger reuseTimeout es k) s := knows_run reuseTimeout es k
  constructor
  case owner =>
    intro miner hmining
    obtain ⟨id, hown⟩ := h.owner hknows hmining
    exact ⟨id, hown, fun id' m' hm' hheld' => hown.unique (h.owns hm' hheld')⟩
  case tenant =>
    intro id m miner hm hheld
    obtain ⟨c, hc, hlogged, hroute, -⟩ := h.holder id m miner hm hheld
    refine ⟨?_, h.owns hm hheld⟩
    rw [← hknows.standing miner, hc, Option.map_some, standing_mining.mpr ⟨hlogged, hroute⟩]
  case apart =>
    intro miner miner' c c' hmining hmining' hc hc' hsame
    obtain ⟨id, hown⟩ := h.owner hknows hmining
    obtain ⟨id', hown'⟩ := h.owner hknows hmining'
    exact hown.apart hown' hc hc' hsame
  case idle =>
    intro id hid
    obtain ⟨hup, hfree⟩ := h.idle id hid
    obtain ⟨m, hm⟩ := h.registered id hup
    exact ⟨hup, m, hm, hfree m hm⟩
  case closed =>
    intro miner id hclose hown
    have hclosed := h.closed hown (es k).1
    rw [hknows.reuseTimeout, mem_stoppedIds] at hclosed
    rw [Machine.state_succ, Machine.emitted]
    change (_ → _ ∈ (step (es k).1 (es k).2 s).2) ∧ (_ → _ ∈ (step (es k).1 (es k).2 s).1.idles)
    rw [hclose]
    exact hclosed
  case rested =>
    intro id m htick hup hm hfree
    obtain ⟨hlong, hshort⟩ := rested_tick h hup hm hfree
    rw [hknows.reuseTimeout] at hlong hshort
    rw [Machine.state_succ, Machine.emitted]
    change (_ → _ ∈ (step (es k).1 (es k).2 s).2) ∧
      (_ → ∃ m', _ ∧ (step (es k).1 (es k).2 s).1.mappers.find id = some m')
    rw [htick]
    refine ⟨fun h => mem_stoppedIds.mp (hlong h), fun h => ?_⟩
    obtain ⟨-, m', hm', htime⟩ := hshort h
    exact ⟨m', htime, hm'⟩
  case stoppedOnce => exact h.stoppedOnce
  case stopped => exact h.stopped
  case stoppedFree => exact fun id hid m hm => h.stopped_free hid hm
  case deletedOnce => exact h.deletedOnce
  case deleted => exact h.deleted
  case deletedStopped => exact fun id hid => h.deleted_stopped hid
  case deletedFree =>
    intro id hid
    have hreleased : id ∈ s.released := deleted_released hid
    obtain ⟨hnot, m, hm, hnone⟩ := h.released id hreleased
    exact ⟨(h.stopped id).mpr ⟨(h.indexed id m hm).2, hnot⟩, m, hm, hnone⟩
  case deletedNext =>
    intro id hid htick
    rw [Machine.trace_succ, deletedIds_append]
    cases hm : s.mappers.find id with
    | none => exact List.mem_append_left _ ((h.deleted id).mpr ⟨((h.stopped id).mp hid).1, hm⟩)
    | some m =>
        have hreleased := h.stopped_released hid hm
        apply List.mem_append_right _
        change id ∈ deletedIds (step (es k).1 (es k).2 s).2
        rw [htick]
        exact released_deleted hreleased
  case found => exact h.found
  case work =>
    intro hfresh id id' write write' hmem hmem' hentropy hsame
    exact private_work hfresh hmem hmem' hentropy hsame

end Tenancies

end XmrigProxy.SimpleSplitter
