import Mathlib.Data.Fintype.Basic
import XmrigProxy.Downstream
import XmrigProxy.Library.Machine

/-! The nonce space of one upstream: 256 slots, one for each value of the fixed nonce byte.
A slot is free, live, or dead; a dead slot stays blocked until the job changes. The fixed
byte is a field of the miner; it is kept here for every miner. -/
namespace XmrigProxy

abbrev Slot := Fin 256

namespace NonceStorage

structure State where
  active : Bool := false
  job : Job := Job.initial
  prevJob : Job := Job.initial
  miners : Finset MinerId := ∅
  /-- Zero, the miner of a live slot, or the negated miner of a dead one. -/
  used : Slot → ℤ := fun _ => 0
  index : Slot
  fixedByte : MinerId → Slot := fun _ => 0

def nextIndex (s : State) : Option Slot :=
  ((List.finRange 256).find? fun i => s.index ≤ i && s.used i = 0).or
    ((List.finRange 256).find? fun i => i < s.index && s.used i = 0)

/-- Takes the miner into the free slot with this index. -/
def take (miner : MinerId) (index : Slot) (s : State) : State :=
  { s with
    fixedByte := Function.update s.fixedByte miner index
    index := index
    used := Function.update s.used index (miner : ℤ)
    miners := insert miner s.miners }

/-- Refuses the miner when no slot is free. -/
def add (miner : MinerId) (s : State) : Option (State × List JobWrite) :=
  (nextIndex s).map fun index =>
    (take miner index s, if s.active then [{ miner, job := s.job }] else [])

def isUsed (s : State) : Bool := (List.finRange 256).any fun i => 0 < s.used i

/-- The second component counts the share as expired. -/
def isValidJobId (id : Option String) (s : State) : Bool × Bool :=
  if id = some s.job.id then (true, false)
  else if s.prevJob.isValid && id = some s.prevJob.id then (true, true)
  else (false, false)

def miner (id : MinerId) (s : State) : Option MinerId :=
  if id ∈ s.miners then some id else none

def remove (miner : MinerId) (s : State) : State :=
  { s with
    used := Function.update s.used (s.fixedByte miner) (-(miner : ℤ))
    miners := s.miners.erase miner }

def reset (s : State) : State := { s with used := fun _ => 0 }

def setActive (active : Bool) (s : State) : State := { s with active }

/-- The miner whose id a slot holds, if it is still registered. -/
def holder (s : State) (slot : Slot) : Option MinerId :=
  if h : 0 < (s.used slot).toNat then miner ⟨(s.used slot).toNat, h⟩ s else none

def setJob (job : Job) (s : State) : State × List JobWrite :=
  let s := { s with used := fun i => if s.used i < 0 then 0 else s.used i }
  let s := { s with
    prevJob := if s.job.clientId = job.clientId then s.job else s.prevJob.reset
    job }
  (s, (List.finRange 256).filterMap fun i => (holder s i).map fun miner => { miner, job := s.job })

inductive Operation where
  | add (miner : MinerId)
  | remove (miner : MinerId)
  | setJob (job : Job)
  | setActive (active : Bool)
  | reset

/-- What a run of operations reports. -/
inductive Report where
  | sent (write : JobWrite)
  | refused (miner : MinerId)

def step : Operation → State → State × List Report
  | .add miner, s =>
      match add miner s with
      | some (s, sent) => (s, sent.map .sent)
      | none => (s, [.refused miner])
  | .remove miner, s => (remove miner s, [])
  | .setJob job, s => ((setJob job s).1, (setJob job s).2.map .sent)
  | .setActive active, s => (setActive active s, [])
  | .reset, s => (reset s, [])

/-- An empty storage starts anywhere. -/
def create (index : Slot) : State := { index }

def machine (index : Slot) : Machine State Operation Report where
  init := create index
  next s op := step op s

/-- What the callers promise: a miner is registered once and removed once, and a storage is
reset only without live slots. -/
def Permitted (s : State) : Operation → Prop
  | .add miner => miner ∉ s.miners
  | .remove miner => miner ∈ s.miners
  | .reset => ∀ i, s.used i ≤ 0
  | _ => True

def changesJob : Operation → Bool
  | .setJob _ | .reset => true
  | _ => false

section Slots

variable {s : State} {miner : MinerId} {index : Slot}

theorem nextIndex_eq_none : nextIndex s = none ↔ ∀ i, s.used i ≠ 0 := by
  simp only [nextIndex, Option.or_eq_none_iff, List.find?_eq_none]
  constructor
  · rintro ⟨hfrom, hto⟩ i hi
    rcases lt_or_ge i s.index with h | h
    · exact hto i (List.mem_finRange i) (by simpa [hi] using h)
    · exact hfrom i (List.mem_finRange i) (by simpa [hi] using h)
  · intro h
    exact ⟨fun i _ => by simp [h i], fun i _ => by simp [h i]⟩

theorem used_of_nextIndex (h : nextIndex s = some index) : s.used index = 0 := by
  rcases Option.or_eq_some_iff.mp h with h | ⟨-, h⟩
  · have := List.find?_some h
    simp only [Bool.and_eq_true, decide_eq_true_eq] at this
    exact this.2
  · have := List.find?_some h
    simp only [Bool.and_eq_true, decide_eq_true_eq] at this
    exact this.2

theorem step_add_none (h : nextIndex s = none) : (step (.add miner) s).1 = s := by
  simp [step, add, h]

theorem step_add_some (h : nextIndex s = some index) :
    (step (.add miner) s).1 = take miner index s := by
  simp [step, add, h]

/-- Refused exactly when every slot is live or dead. -/
theorem add_eq_none : add miner s = none ↔ ∀ i, 0 < s.used i ∨ s.used i < 0 := by
  rw [add, Option.map_eq_none_iff, nextIndex_eq_none]
  exact forall_congr' fun i => by omega

/-- A job change frees the dead slots and no others. -/
theorem used_setJob (job : Job) (s : State) (i : Slot) :
    (setJob job s).1.used i = if s.used i < 0 then 0 else s.used i := rfl

end Slots

section Spaces

/-- Live slots and registered miners correspond. -/
structure Assigned (s : State) : Prop where
  own : ∀ m ∈ s.miners, s.used (s.fixedByte m) = (m : ℤ)
  registered : ∀ i, 0 < s.used i → ∃ m ∈ s.miners, s.used i = (m : ℤ) ∧ s.fixedByte m = i

variable {s : State} {op : Operation}

theorem assigned_initial (index : Slot) : Assigned { index } := by
  constructor
  · intro m hm
    simp at hm
  · intro i hi
    exact absurd hi (lt_irrefl 0)

theorem Assigned.take {miner : MinerId} {index : Slot} (h : Assigned s) (hm : miner ∉ s.miners)
    (hfree : s.used index = 0) : Assigned (take miner index s) := by
  have hother : ∀ m ∈ s.miners, s.fixedByte m ≠ index := by
    rintro m hm rfl
    have := h.own m hm
    have := m.pos
    omega
  constructor
  · intro m hmem
    rcases Finset.mem_insert.mp hmem with rfl | hmem
    · simp [NonceStorage.take]
    · have hne : m ≠ miner := fun heq => hm (heq ▸ hmem)
      simp only [NonceStorage.take, Function.update_of_ne hne,
        Function.update_of_ne (hother m hmem)]
      exact h.own m hmem
  · intro i hi
    by_cases hindex : i = index
    · subst hindex
      exact ⟨miner, Finset.mem_insert_self _ _, by simp [NonceStorage.take], by
        simp [NonceStorage.take]⟩
    · simp only [NonceStorage.take, Function.update_of_ne hindex] at hi ⊢
      obtain ⟨m, hmem, hused, hbyte⟩ := h.registered i hi
      have hne : m ≠ miner := fun heq => hm (heq ▸ hmem)
      exact ⟨m, Finset.mem_insert_of_mem hmem, hused, by rw [Function.update_of_ne hne, hbyte]⟩

theorem Assigned.remove {miner : MinerId} (h : Assigned s) (hm : miner ∈ s.miners) :
    Assigned (remove miner s) := by
  have hother : ∀ m ∈ s.miners, m ≠ miner → s.fixedByte m ≠ s.fixedByte miner := by
    intro m hmem hne heq
    have hused := h.own m hmem
    rw [heq, h.own miner hm] at hused
    exact hne (PNat.eq (by omega))
  constructor
  · intro m hmem
    obtain ⟨hne, hmem⟩ := Finset.mem_erase.mp hmem
    simp only [NonceStorage.remove, Function.update_of_ne (hother m hmem hne)]
    exact h.own m hmem
  · intro i hi
    have hpos := miner.pos
    by_cases hindex : i = s.fixedByte miner
    · simp only [NonceStorage.remove, hindex, Function.update_self] at hi
      omega
    · simp only [NonceStorage.remove, Function.update_of_ne hindex] at hi ⊢
      obtain ⟨m, hmem, hused, hbyte⟩ := h.registered i hi
      have hne : m ≠ miner := fun heq => hindex (by rw [← hbyte, heq])
      exact ⟨m, Finset.mem_erase.mpr ⟨hne, hmem⟩, hused, hbyte⟩

theorem Assigned.setJob (h : Assigned s) (job : Job) : Assigned (setJob job s).1 := by
  constructor
  · intro m hmem
    have hused := h.own m hmem
    have := m.pos
    rw [used_setJob]
    change (if s.used (s.fixedByte m) < 0 then 0 else s.used (s.fixedByte m)) = _
    rw [if_neg (by omega), hused]
  · intro i hi
    rw [used_setJob] at hi ⊢
    split at hi
    · omega
    · next hlive =>
      rw [if_neg hlive]
      exact h.registered i hi

theorem Assigned.reset (h : Assigned s) (hdead : ∀ i, s.used i ≤ 0) : Assigned (reset s) := by
  constructor
  · intro m hmem
    have := h.own m hmem
    have := hdead (s.fixedByte m)
    have := m.pos
    omega
  · intro i hi
    exact absurd hi (lt_irrefl 0)

theorem Assigned.step (h : Assigned s) (hop : Permitted s op) : Assigned (step op s).1 := by
  cases op with
  | add miner =>
      cases hindex : nextIndex s with
      | none => rwa [step_add_none hindex]
      | some index =>
          rw [step_add_some hindex]
          exact h.take hop (used_of_nextIndex hindex)
  | remove miner => exact h.remove hop
  | setJob job => exact h.setJob job
  | setActive active => exact ⟨h.own, h.registered⟩
  | reset => exact h.reset hop

/-- The slot is held for the miner: live while it is registered, dead afterwards. -/
def HeldFor (m : MinerId) (i : Slot) (s : State) : Prop :=
  s.used i = (m : ℤ) ∨ s.used i = -(m : ℤ)

/-- Until the job changes, a slot is held for one miner only. -/
theorem HeldFor.step {m : MinerId} {i : Slot} (hheld : HeldFor m i s) (h : Assigned s)
    (hop : Permitted s op) (hchange : changesJob op = false) :
    HeldFor m i (NonceStorage.step op s).1 := by
  have hpos := m.pos
  cases op with
  | add miner =>
      cases hindex : nextIndex s with
      | none => rwa [step_add_none hindex]
      | some index =>
          rw [step_add_some hindex]
          have hne : i ≠ index := by
            rintro rfl
            have := used_of_nextIndex hindex
            rcases hheld with hheld | hheld <;> omega
          simpa only [HeldFor, take, Function.update_of_ne hne] using hheld
  | remove miner =>
      by_cases hi : i = s.fixedByte miner
      · have hminer : miner = m := by
          have hown := h.own miner hop
          have := miner.pos
          rw [← hi] at hown
          rcases hheld with hheld | hheld
          · exact PNat.eq (by omega)
          · omega
        right
        simp [NonceStorage.step, NonceStorage.remove, hi, hminer]
      · simpa [HeldFor, NonceStorage.step, NonceStorage.remove, Function.update_of_ne hi]
          using hheld
  | setActive active => exact hheld
  | setJob job => simp [changesJob] at hchange
  | reset => simp [changesJob] at hchange

/-- Who is registered after an operation. -/
theorem mem_miners_step {m : MinerId} : m ∈ (step op s).1.miners ↔
    (op = .add m ∧ .refused m ∉ (step op s).2) ∨ (m ∈ s.miners ∧ op ≠ .remove m) := by
  cases op with
  | add miner =>
      cases hindex : nextIndex s with
      | none =>
          rw [step_add_none hindex]
          have hrefused : .refused miner ∈ (step (.add miner) s).2 := by simp [step, add, hindex]
          constructor
          · exact fun hm => Or.inr ⟨hm, by simp⟩
          · rintro (⟨heq, hnot⟩ | ⟨hm, -⟩)
            · obtain rfl := Operation.add.inj heq
              exact absurd hrefused hnot
            · exact hm
      | some index =>
          rw [step_add_some hindex]
          have hnot : .refused m ∉ (step (.add miner) s).2 := by simp [step, add, hindex]
          simp [take, hnot, eq_comm (a := m)]
  | remove miner => simp [step, remove, and_comm, eq_comm]
  | setJob job => simp [step, setJob]
  | setActive active => simp [step, setActive]
  | reset => simp [step, reset]

/-- Which slots are dead after an operation. -/
theorem Assigned.dead_step (h : Assigned s) (hop : Permitted s op) {m : MinerId} {slot : Slot} :
    (NonceStorage.step op s).1.used slot = -(m : ℤ) ↔
      (op = .remove m ∧ s.fixedByte m = slot) ∨
        (s.used slot = -(m : ℤ) ∧ changesJob op = false) := by
  have hpos := m.pos
  cases op with
  | add miner =>
      cases hindex : nextIndex s with
      | none => simp [step_add_none hindex, changesJob]
      | some index =>
          rw [step_add_some hindex]
          have hused := used_of_nextIndex hindex
          have hminer := miner.pos
          by_cases hslot : slot = index
          · subst hslot
            simp only [NonceStorage.take, Function.update_self, hused, reduceCtorEq, false_and,
              false_or, changesJob, and_true]
            omega
          · simp [NonceStorage.take, Function.update_of_ne hslot, changesJob]
  | remove miner =>
      have hown := h.own miner hop
      have hminer := miner.pos
      by_cases hslot : slot = s.fixedByte miner
      · subst hslot
        have hne : s.used (s.fixedByte miner) ≠ -(m : ℤ) := by omega
        simp only [NonceStorage.step, NonceStorage.remove, Function.update_self, neg_inj, hne,
          false_and, or_false, Operation.remove.injEq]
        constructor
        · intro heq
          obtain rfl : miner = m := PNat.eq (by omega)
          exact ⟨rfl, rfl⟩
        · rintro ⟨rfl, -⟩
          rfl
      · simp only [NonceStorage.step, NonceStorage.remove, Function.update_of_ne hslot, changesJob,
          and_true, Operation.remove.injEq]
        constructor
        · exact Or.inr
        · rintro (⟨rfl, heq⟩ | hused)
          · exact absurd heq.symm hslot
          · exact hused
  | setJob job =>
      simp only [NonceStorage.step, used_setJob, reduceCtorEq, false_and, false_or, changesJob,
        Bool.true_eq_false, and_false, iff_false]
      split <;> omega
  | setActive active => simp [NonceStorage.step, setActive, changesJob]
  | reset =>
      simp only [NonceStorage.step, NonceStorage.reset, reduceCtorEq, false_and, false_or,
        changesJob, Bool.true_eq_false, and_false, iff_false]
      omega

end Spaces

section Histories

variable {index : Slot} {es : ℕ → Operation} {k : ℕ} {m : MinerId} {slot : Slot}

/-- The miner was added, was not refused, and has not been removed since. -/
def Registered (index : Slot) (es : ℕ → Operation) (m : MinerId) (k : ℕ) : Prop :=
  ∃ i < k, es i = .add m ∧ .refused m ∉ (machine index).emitted es i ∧
    ∀ j, i < j → j < k → es j ≠ .remove m

/-- The miner was removed while it had the slot, and the job has not changed since. -/
def Departed (index : Slot) (es : ℕ → Operation) (m : MinerId) (slot : Slot) (k : ℕ) : Prop :=
  ∃ i < k, es i = .remove m ∧ ((machine index).state es i).fixedByte m = slot ∧
    ∀ j, i < j → j < k → changesJob (es j) = false

/-- What the callers promise: a miner is added unless it is registered, and removed if it is; the
storage is reset when nobody is. -/
def Orderly (index : Slot) (es : ℕ → Operation) (k : ℕ) : Prop :=
  match es k with
  | .add m => ¬ Registered index es m k
  | .remove m => Registered index es m k
  | .reset => ∀ m, ¬ Registered index es m k
  | _ => True

theorem registered_succ : Registered index es m (k + 1) ↔
    (es k = .add m ∧ .refused m ∉ (machine index).emitted es k) ∨
      (Registered index es m k ∧ es k ≠ .remove m) := by
  constructor
  · rintro ⟨i, hi, hadd, hnot, hstays⟩
    rcases Nat.lt_succ_iff_lt_or_eq.mp hi with hik | rfl
    · exact Or.inr ⟨⟨i, hik, hadd, hnot, fun j hij hjk => hstays j hij (by omega)⟩,
        hstays k hik (Nat.lt_succ_self k)⟩
    · exact Or.inl ⟨hadd, hnot⟩
  · rintro (⟨hadd, hnot⟩ | ⟨⟨i, hi, hadd, hnot, hstays⟩, hstay⟩)
    · exact ⟨k, Nat.lt_succ_self k, hadd, hnot, fun j hkj hjk => absurd hjk (by omega)⟩
    · refine ⟨i, by omega, hadd, hnot, fun j hij hjk => ?_⟩
      rcases Nat.lt_succ_iff_lt_or_eq.mp hjk with hjk | rfl
      · exact hstays j hij hjk
      · exact hstay

theorem departed_succ : Departed index es m slot (k + 1) ↔
    (es k = .remove m ∧ ((machine index).state es k).fixedByte m = slot) ∨
      (Departed index es m slot k ∧ changesJob (es k) = false) := by
  constructor
  · rintro ⟨i, hi, hremove, hbyte, hquiet⟩
    rcases Nat.lt_succ_iff_lt_or_eq.mp hi with hik | rfl
    · exact Or.inr ⟨⟨i, hik, hremove, hbyte, fun j hij hjk => hquiet j hij (by omega)⟩,
        hquiet k hik (Nat.lt_succ_self k)⟩
    · exact Or.inl ⟨hremove, hbyte⟩
  · rintro (⟨hremove, hbyte⟩ | ⟨⟨i, hi, hremove, hbyte, hquiet⟩, hlast⟩)
    · exact ⟨k, Nat.lt_succ_self k, hremove, hbyte, fun j hkj hjk => absurd hjk (by omega)⟩
    · refine ⟨i, by omega, hremove, hbyte, fun j hij hjk => ?_⟩
      rcases Nat.lt_succ_iff_lt_or_eq.mp hjk with hjk | rfl
      · exact hquiet j hij hjk
      · exact hlast

/-- The tables agree with the operations so far. -/
structure Recorded (index : Slot) (es : ℕ → Operation) (k : ℕ) (s : State) : Prop
    extends Assigned s where
  miners : ∀ m, m ∈ s.miners ↔ Registered index es m k
  dead : ∀ (m : MinerId) slot, s.used slot = -(m : ℤ) ↔ Departed index es m slot k

variable {s : State}

theorem Recorded.permitted (h : Recorded index es k s) (horderly : Orderly index es k) :
    Permitted s (es k) := by
  unfold Orderly at horderly
  cases hop : es k with
  | add m =>
      rw [hop] at horderly
      exact fun hm => horderly ((h.miners m).mp hm)
  | remove m =>
      rw [hop] at horderly
      exact (h.miners m).mpr horderly
  | reset =>
      rw [hop] at horderly
      intro i
      by_contra hlive
      obtain ⟨m, hm, -⟩ := h.registered i (by omega)
      exact horderly m ((h.miners m).mp hm)
  | setJob job => trivial
  | setActive active => trivial

theorem Recorded.orderly (h : Recorded index es k s) (hop : Permitted s (es k)) :
    Orderly index es k := by
  unfold Orderly
  cases hes : es k with
  | add m =>
      rw [hes] at hop
      exact fun hm => hop ((h.miners m).mpr hm)
  | remove m =>
      rw [hes] at hop
      exact (h.miners m).mp hop
  | reset =>
      rw [hes] at hop
      intro m hm
      have hown := h.own m ((h.miners m).mpr hm)
      have hfree := hop (s.fixedByte m)
      have := m.pos
      omega
  | setJob job => trivial
  | setActive active => trivial

/-- Who is registered, and which slots are dead, after one more operation. -/
theorem Recorded.step (h : Recorded index es k ((machine index).state es k))
    (hop : Permitted ((machine index).state es k) (es k)) :
    Recorded index es (k + 1) ((machine index).state es (k + 1)) := by
  have hassigned : Assigned ((machine index).state es (k + 1)) := h.toAssigned.step hop
  refine ⟨hassigned, fun m => ?_, fun m slot => ?_⟩
  · rw [registered_succ, ← h.miners m]
    exact mem_miners_step
  · rw [departed_succ, ← h.dead m slot]
    exact h.toAssigned.dead_step hop

end Histories

section Runs

variable {index : Slot} {es : ℕ → Operation} {k : ℕ}

theorem recorded (horderly : ∀ j < k, Orderly index es j) :
    Recorded index es k ((machine index).state es k) := by
  induction k with
  | zero =>
      refine ⟨assigned_initial index, fun m => ?_, fun m slot => ?_⟩
      · apply iff_of_false (Finset.notMem_empty m)
        rintro ⟨i, hi, -⟩
        exact absurd hi (Nat.not_lt_zero i)
      · have hpos := m.pos
        refine iff_of_false (fun hused => ?_) ?_
        · change (0 : ℤ) = _ at hused
          omega
        · rintro ⟨i, hi, -⟩
          exact absurd hi (Nat.not_lt_zero i)
  | succ k ih =>
      have hrecorded := ih fun j hj => horderly j (Nat.lt_succ_of_lt hj)
      exact hrecorded.step (hrecorded.permitted (horderly k (Nat.lt_succ_self k)))

/-- The state shows whether a run is orderly. -/
theorem orderly_of_permitted (h : ∀ j < k, Permitted ((machine index).state es j) (es j)) :
    ∀ j < k, Orderly index es j := by
  induction k with
  | zero => exact fun j hj => absurd hj (Nat.not_lt_zero j)
  | succ k ih =>
      have hbefore := ih fun j hj => h j (Nat.lt_succ_of_lt hj)
      intro j hj
      rcases Nat.lt_succ_iff_lt_or_eq.mp hj with hj | rfl
      · exact hbefore j hj
      · exact (recorded hbefore).orderly (h j (Nat.lt_succ_self j))

/-- Over every orderly run: the table lists the miners that were added and not removed since, and
a slot is dead exactly while a miner has left it and the job has not changed; between job changes
no two miners have held one fixed byte; live slots and registered miners correspond; a miner is
refused exactly when every slot is live or dead; and a job change frees exactly the dead slots. -/
theorem nonce_spaces_disjoint (index : Slot) (es : ℕ → Operation) (k : ℕ)
    (horderly : ∀ j < k, Orderly index es j) :
    let state := (machine index).state es
    (∀ m, m ∈ (state k).miners ↔ Registered index es m k) ∧
    (∀ (m : MinerId) slot,
      (state k).used slot = -(m : ℤ) ↔ Departed index es m slot k) ∧
    (∀ i j, i ≤ j → j ≤ k → (∀ l, i ≤ l → l < j → changesJob (es l) = false) →
      ∀ m₁ m₂, Registered index es m₁ i → Registered index es m₂ j → m₁ ≠ m₂ →
        (state i).fixedByte m₁ ≠ (state j).fixedByte m₂) ∧
    (∀ m, Registered index es m k → (state k).used ((state k).fixedByte m) = (m : ℤ)) ∧
    (∀ slot, 0 < (state k).used slot → ∃ m, Registered index es m k ∧
      (state k).used slot = (m : ℤ) ∧ (state k).fixedByte m = slot) ∧
    (∀ m, add m (state k) = none ↔ ∀ slot, 0 < (state k).used slot ∨ (state k).used slot < 0) ∧
    (∀ job slot, (setJob job (state k)).1.used slot =
      if (state k).used slot < 0 then 0 else (state k).used slot) := by
  intro state
  have hrecorded : ∀ j ≤ k, Recorded index es j (state j) :=
    fun j hj => recorded fun i hi => horderly i (lt_of_lt_of_le hi hj)
  have hlast := hrecorded k le_rfl
  refine ⟨hlast.miners, hlast.dead, fun i j hij hjk hquiet m₁ m₂ hm₁ hm₂ hne hbyte => ?_,
    fun m hm => hlast.own m ((hlast.miners m).mpr hm), fun slot hlive => ?_,
    fun m => add_eq_none, fun job slot => used_setJob job _ slot⟩
  · have hfirst := hrecorded i (hij.trans hjk)
    have hheld : HeldFor m₁ ((state i).fixedByte m₁) (state j) :=
      Machine.persists hij (Or.inl (hfirst.own m₁ ((hfirst.miners m₁).mpr hm₁)))
        fun l hil hlj h => h.step (hrecorded l (by omega)).toAssigned
          ((hrecorded l (by omega)).permitted (horderly l (by omega))) (hquiet l hil hlj)
    have hown := (hrecorded j hjk).own m₂ (((hrecorded j hjk).miners m₂).mpr hm₂)
    have hpos := m₁.pos
    have hpos₂ := m₂.pos
    rw [← hbyte] at hown
    rcases hheld with hheld | hheld
    · exact hne (PNat.eq (by omega))
    · omega
  · obtain ⟨m, hm, hused, hbyte⟩ := hlast.registered slot hlive
    exact ⟨m, (hlast.miners m).mp hm, hused, hbyte⟩

/-- The third miner does not get the byte of the first, which has left. -/
theorem nonce_spaces_disjoint_departed :
    let es := follow [.add 1, .add 2, .remove 1, .add 3] (.setActive false)
    Departed 0 es 1 0 4 ∧
      ((machine 0).state es 1).fixedByte 1 ≠ ((machine 0).state es 4).fixedByte 3 := by
  intro es
  have hpermitted : ∀ j < 4, Permitted ((machine 0).state es j) (es j) := by
    intro j hj
    have hcases : j = 0 ∨ j = 1 ∨ j = 2 ∨ j = 3 := by omega
    rcases hcases with rfl | rfl | rfl | rfl
    · exact Finset.notMem_empty _
    · change (2 : MinerId) ∉ ((machine 0).state es 1).miners
      decide
    · change (1 : MinerId) ∈ ((machine 0).state es 2).miners
      decide
    · change (3 : MinerId) ∉ ((machine 0).state es 3).miners
      decide
  have horderly := orderly_of_permitted hpermitted
  have hfirst : Registered 0 es 1 1 :=
    ((recorded fun j hj => horderly j (by omega)).miners 1).mp (by decide)
  obtain ⟨hminers, hdead, hapart, -⟩ := nonce_spaces_disjoint 0 es 4 horderly
  refine ⟨(hdead 1 0).mp (by decide), hapart 1 4 (by decide) le_rfl (fun l hl hlt => ?_) 1 3 hfirst
    ((hminers 3).mp (by decide)) (by decide)⟩
  have hcases : l = 1 ∨ l = 2 ∨ l = 3 := by omega
  rcases hcases with rfl | rfl | rfl <;> rfl

end Runs

end NonceStorage

end XmrigProxy
