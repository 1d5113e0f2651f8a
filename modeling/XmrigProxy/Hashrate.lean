import Mathlib.Algebra.Order.BigOperators.Group.List
import Mathlib.Data.Nat.Notation
import Mathlib.Tactic.Common
import Mathlib.Tactic.Linarith

/-! Accepted difficulties are summed by ticks of four seconds, in counters of 32 bits. -/
namespace XmrigProxy

/-- The elements have `w` bits, which the user of the template chooses. -/
structure TickingCounter (w : ℕ) where
  tickTime : ℕ
  data : List (BitVec w) := []
  pending : BitVec w := 0
  deriving DecidableEq, Repr

namespace TickingCounter

variable {w : ℕ}

def add (count : BitVec w) (c : TickingCounter w) : TickingCounter w :=
  { c with pending := c.pending + count }

def tick (c : TickingCounter w) : TickingCounter w :=
  { c with
    data := c.data ++ [c.pending]
    pending := 0 }

/-- The sum from which `calc` computes the rate. -/
def count (seconds : ℕ) (c : TickingCounter w) : BitVec 64 :=
  let ticks := seconds / c.tickTime
  let size := c.data.length
  (c.data.drop (if size < ticks then 0 else size - ticks)).foldl
    (fun count x => count + x.setWidth 64) 0

end TickingCounter

/-- The difficulties accepted in each completed tick, and since then, without any bound. -/
structure TickSums where
  completed : List ℕ := []
  pending : ℕ := 0
  deriving DecidableEq, Repr

namespace TickSums

def add (diff : UInt64) (t : TickSums) : TickSums :=
  { t with pending := t.pending + diff.toNat }

def tick (t : TickSums) : TickSums := ⟨t.completed ++ [t.pending], 0⟩

/-- The last `n` completed ticks. -/
def window (n : ℕ) (t : TickSums) : List ℕ := t.completed.drop (t.completed.length - n)

end TickSums

section Counting

variable {w : ℕ}

/-- Each tick of the counter is the exact one without its high bits. -/
structure Counts (t : TickSums) (c : TickingCounter w) : Prop where
  completed : c.data = t.completed.map fun sum => BitVec.ofNat w sum
  pending : c.pending = BitVec.ofNat w t.pending

variable {t : TickSums} {c : TickingCounter w}

theorem Counts.add (h : Counts t c) (diff : UInt64) :
    Counts (t.add diff) (c.add (diff.toBitVec.setWidth w)) where
  completed := h.completed
  pending := by
    change c.pending + _ = BitVec.ofNat w (t.pending + diff.toNat)
    rw [h.pending, BitVec.ofNat_add]
    exact congrArg _ (BitVec.ofNat_toNat w diff.toBitVec).symm

theorem Counts.tick (h : Counts t c) : Counts t.tick c.tick where
  completed := by
    change c.data ++ [c.pending] = (t.completed ++ [t.pending]).map _
    rw [h.completed, h.pending, List.map_append]
    rfl
  pending := rfl

theorem toNat_foldl_add (l : List (BitVec w)) (hw : w ≤ 64) (start : BitVec 64) :
    (l.foldl (fun count x => count + x.setWidth 64) start).toNat =
      (start.toNat + (l.map BitVec.toNat).sum) % 2 ^ 64 := by
  induction l generalizing start with
  | nil =>
      rw [List.foldl_nil, List.map_nil, List.sum_nil, Nat.add_zero]
      exact (Nat.mod_eq_of_lt start.isLt).symm
  | cons x rest ih =>
      have hx : x.toNat < 2 ^ 64 := Nat.lt_of_lt_of_le x.isLt (Nat.pow_le_pow_right (by decide) hw)
      rw [List.foldl_cons, ih, BitVec.toNat_add, BitVec.toNat_setWidth, Nat.mod_eq_of_lt hx,
        Nat.mod_add_mod, List.map_cons, List.sum_cons, Nat.add_assoc]

theorem sum_map_mod_le (m : ℕ) (l : List ℕ) : (l.map fun d => d % m).sum ≤ l.sum := by
  induction l with
  | nil => exact le_rfl
  | cons d rest ih =>
      rw [List.map_cons, List.sum_cons, List.sum_cons]
      exact Nat.add_le_add (Nat.mod_le d m) ih

/-- A sum survives the reduction of its terms when none of them is reduced. -/
theorem sum_map_mod_eq {m : ℕ} (hm : 0 < m) (l : List ℕ) :
    (l.map fun d => d % m).sum = l.sum ↔ ∀ d ∈ l, d < m := by
  induction l with
  | nil => exact iff_of_true rfl fun _ hd => absurd hd List.not_mem_nil
  | cons d rest ih =>
      have hrest := sum_map_mod_le m rest
      have hfirst := Nat.mod_le d m
      rw [List.map_cons, List.sum_cons, List.sum_cons, List.forall_mem_cons, ← ih]
      constructor
      · intro h
        refine ⟨?_, by omega⟩
        have hkept : d % m = d := by omega
        rw [← hkept]
        exact Nat.mod_lt d hm
      · rintro ⟨hsmall, hsame⟩
        rw [Nat.mod_eq_of_lt hsmall, hsame]

theorem Counts.count (h : Counts t c) (hw : w ≤ 64) (seconds : ℕ) :
    (c.count seconds).toNat =
      ((t.window (seconds / c.tickTime)).map fun d => d % 2 ^ w).sum % 2 ^ 64 := by
  have hlength : c.data.length = t.completed.length := by
    rw [h.completed, List.length_map]
  have hdrop : (if c.data.length < seconds / c.tickTime then 0
      else c.data.length - seconds / c.tickTime) =
      t.completed.length - seconds / c.tickTime := by
    rw [hlength]
    split <;> omega
  unfold TickingCounter.count TickSums.window
  dsimp only
  rw [hdrop, toNat_foldl_add _ hw, h.completed, ← List.map_drop,
    List.map_map]
  have hterms : (BitVec.toNat ∘ fun sum => BitVec.ofNat w sum) = fun d => d % 2 ^ w := by
    funext d
    exact BitVec.toNat_ofNat d w
  rw [hterms]
  exact congrArg (· % 2 ^ 64) (Nat.zero_add _)

/-- As long as the exact sum fits 64 bits, only ticks that do not fit the element type count. -/
theorem Counts.exact (h : Counts t c) (hw : w ≤ 64) (seconds : ℕ)
    (hfits : (t.window (seconds / c.tickTime)).sum < 2 ^ 64) :
    (c.count seconds).toNat = (t.window (seconds / c.tickTime)).sum ↔
      ∀ d ∈ t.window (seconds / c.tickTime), d < 2 ^ w := by
  have hle := sum_map_mod_le (2 ^ w) (t.window (seconds / c.tickTime))
  rw [h.count hw, Nat.mod_eq_of_lt (Nat.lt_of_le_of_lt hle hfits)]
  exact sum_map_mod_eq (Nat.two_pow_pos w) _

end Counting

structure Worker where
  id : ℕ
  ip : String
  name : String
  hashrate : TickingCounter 32 := { tickTime := 4 }
  accepted : UInt64 := 0
  connections : UInt64 := 1
  hashes : UInt64 := 0
  invalid : UInt64 := 0
  lastHash : UInt64 := 0
  rejected : UInt64 := 0
  deriving DecidableEq, Repr

namespace Worker

inductive Input where
  | add (diff now : UInt64)
  | tick (ticks : UInt64)
  | addConnection (ip : String)
  | reject (invalid : Bool)
  | remove
  deriving DecidableEq, Repr

def add (diff now : UInt64) (s : Worker) : Worker :=
  { s with
    accepted := s.accepted + 1
    hashes := s.hashes + diff
    hashrate := s.hashrate.add (diff.toBitVec.setWidth 32)
    lastHash := now }

def tick (_ticks : UInt64) (s : Worker) : Worker := { s with hashrate := s.hashrate.tick }

def reject (invalid : Bool) (s : Worker) : Worker :=
  if invalid then { s with invalid := s.invalid + 1 } else { s with rejected := s.rejected + 1 }

def step (s : Worker) : Input → Worker
  | .add diff now => s.add diff now
  | .tick ticks => s.tick ticks
  | .addConnection ip =>
      { s with
        ip := ip
        connections := s.connections + 1 }
  | .reject invalid => s.reject invalid
  | .remove => { s with connections := s.connections - 1 }

/-- What the input means for the exact sums. -/
def account (t : TickSums) : Input → TickSums
  | .add diff _ => t.add diff
  | .tick _ => t.tick
  | _ => t

theorem counts_step {t : TickSums} {s : Worker} (h : Counts t s.hashrate) (input : Input) :
    Counts (account t input) (s.step input).hashrate := by
  cases input with
  | add diff now => exact h.add diff
  | tick ticks => exact h.tick
  | addConnection ip => exact h
  | reject invalid =>
      change Counts t (s.reject invalid).hashrate
      unfold reject
      split <;> exact h
  | remove => exact h

theorem tickTime_step (s : Worker) (input : Input) :
    (s.step input).hashrate.tickTime = s.hashrate.tickTime := by
  cases input with
  | reject invalid =>
      change (s.reject invalid).hashrate.tickTime = _
      unfold reject
      split <;> rfl
  | _ => rfl

theorem counts_run (inputs : List Input) {t : TickSums} {s : Worker} (h : Counts t s.hashrate) :
    Counts (inputs.foldl account t) (inputs.foldl step s).hashrate ∧
      (inputs.foldl step s).hashrate.tickTime = s.hashrate.tickTime := by
  induction inputs generalizing t s with
  | nil => exact ⟨h, rfl⟩
  | cons input rest ih =>
      obtain ⟨hcounts, htime⟩ := ih (counts_step h input)
      exact ⟨hcounts, htime.trans (tickTime_step s input)⟩

end Worker

namespace Stats

/-- The result of a share, and what its event tells; `customDiff` is that of its miner, if any. -/
structure AcceptEvent where
  diff : UInt64
  actualDiff : UInt64
  minerDiff : UInt64
  elapsed : UInt64
  ambiguous : Bool
  customDiff : Option UInt64
  isCustomDiff : Bool
  isDonate : Bool
  isRejected : Bool
  deriving DecidableEq, Repr

def AcceptEvent.statsDiff (event : AcceptEvent) : UInt64 :=
  if event.minerDiff ≠ 0 then event.minerDiff
  else match event.customDiff with
    | some customDiff => if customDiff ≠ 0 then min customDiff event.diff else event.diff
    | none => event.diff

/-- The counters; the rates as floating-point numbers and the upstreams, which the ticks copy for
the API, are left out. -/
structure State where
  connections : UInt64 := 0
  accepted : UInt64 := 0
  hashes : UInt64 := 0
  donateHashes : UInt64 := 0
  invalid : UInt64 := 0
  rejected : UInt64 := 0
  counter : UInt64 := 0
  topDiff : List UInt64 := List.replicate 10 0
  latency : List UInt64 := []
  hashrate : TickingCounter 32 := { tickTime := 4 }

inductive Input where
  | tick (ticks : UInt64)
  | connection
  | close
  | submitRejected
  | accept (customDiffStats : Bool) (event : AcceptEvent)
  deriving DecidableEq, Repr

def tick (ticks : UInt64) (s : State) : State :=
  if (ticks + 1).toNat % s.hashrate.tickTime = 0 then { s with hashrate := s.hashrate.tick } else s

def rankDiff (actualDiff : UInt64) (topDiff : List UInt64) : List UInt64 :=
  let ln := topDiff.length - 1
  if topDiff.getD ln 0 < actualDiff then (topDiff.set ln actualDiff).mergeSort fun a b => b ≤ a
  else topDiff

def accept (customDiffStats : Bool) (event : AcceptEvent) (s : State) : State :=
  if event.isCustomDiff && !customDiffStats then s
  else
    let diff := if customDiffStats then event.statsDiff else event.diff
    let counted : State := { s with hashrate := s.hashrate.add (diff.toBitVec.setWidth 32) }
    if event.isCustomDiff then counted
    else
      { counted with
        accepted := s.accepted + 1
        hashes := s.hashes + event.diff
        donateHashes := if event.isDonate then s.donateHashes + event.diff else s.donateHashes
        counter := s.counter + 1
        topDiff := rankDiff event.actualDiff s.topDiff
        latency := s.latency ++ [if 0xFFFF < event.elapsed then 0xFFFF else event.elapsed] }

def reject (event : AcceptEvent) (s : State) : State :=
  if event.isDonate || event.ambiguous then s else { s with rejected := s.rejected + 1 }

def step (s : State) : Input → State
  | .tick ticks => tick ticks s
  | .connection => { s with connections := s.connections + 1 }
  | .close => { s with connections := s.connections - 1 }
  | .submitRejected => { s with invalid := s.invalid + 1 }
  | .accept customDiffStats event =>
      if event.isRejected then reject event s else accept customDiffStats event s

/-- The difficulty that a share counts with, if it counts in the hashrate of the proxy. -/
def counted (customDiffStats : Bool) (event : AcceptEvent) : Option UInt64 :=
  if event.isRejected || (event.isCustomDiff && !customDiffStats) then none
  else some (if customDiffStats then event.statsDiff else event.diff)

def account (t : TickSums) : Input → TickSums
  | .tick ticks => if (ticks + 1).toNat % 4 = 0 then t.tick else t
  | .accept customDiffStats event =>
      match counted customDiffStats event with
      | some diff => t.add diff
      | none => t
  | _ => t

theorem hashrate_reject (event : AcceptEvent) (s : State) :
    (reject event s).hashrate = s.hashrate := by
  unfold reject
  split <;> rfl

theorem hashrate_accept {customDiffStats : Bool} {event : AcceptEvent}
    (hcounted : ¬ (event.isCustomDiff && !customDiffStats) = true) (s : State) :
    (accept customDiffStats event s).hashrate =
      s.hashrate.add
        ((if customDiffStats then event.statsDiff else event.diff).toBitVec.setWidth 32) := by
  unfold accept
  rw [if_neg hcounted]
  dsimp only
  split <;> rfl

theorem tickTime_step (s : State) (input : Input) :
    (step s input).hashrate.tickTime = s.hashrate.tickTime := by
  cases input with
  | tick ticks =>
      change (tick ticks s).hashrate.tickTime = _
      unfold tick
      split <;> rfl
  | accept customDiffStats event =>
      change (if event.isRejected then reject event s
        else accept customDiffStats event s).hashrate.tickTime = _
      split
      · rw [hashrate_reject]
      · by_cases hcounted : (event.isCustomDiff && !customDiffStats) = true
        · unfold accept
          rw [if_pos hcounted]
        · rw [hashrate_accept hcounted]
          rfl
  | connection => rfl
  | close => rfl
  | submitRejected => rfl

theorem counts_accept {t : TickSums} {s : State} (h : Counts t s.hashrate) (customDiffStats : Bool)
    (event : AcceptEvent) : Counts (account t (.accept customDiffStats event))
      (step s (.accept customDiffStats event)).hashrate := by
  change Counts (match counted customDiffStats event with | some diff => t.add diff | none => t)
    (if event.isRejected then reject event s else accept customDiffStats event s).hashrate
  unfold counted
  by_cases hrejected : event.isRejected = true
  · rw [if_pos hrejected, hrejected, Bool.true_or, if_pos rfl, hashrate_reject]
    exact h
  · rw [if_neg hrejected, Bool.eq_false_iff.mpr hrejected, Bool.false_or]
    by_cases hskipped : (event.isCustomDiff && !customDiffStats) = true
    · unfold accept
      rw [if_pos hskipped, if_pos hskipped]
      exact h
    · rw [if_neg hskipped, hashrate_accept hskipped]
      exact h.add _

theorem counts_step {t : TickSums} {s : State} (h : Counts t s.hashrate)
    (htime : s.hashrate.tickTime = 4) (input : Input) :
    Counts (account t input) (step s input).hashrate := by
  cases input with
  | tick ticks =>
      change Counts (if (ticks + 1).toNat % 4 = 0 then t.tick else t) (tick ticks s).hashrate
      unfold tick
      rw [htime]
      split
      · exact h.tick
      · exact h
  | accept customDiffStats event => exact counts_accept h customDiffStats event
  | connection => exact h
  | close => exact h
  | submitRejected => exact h

theorem counts_run (inputs : List Input) {t : TickSums} {s : State} (h : Counts t s.hashrate)
    (htime : s.hashrate.tickTime = 4) :
    Counts (inputs.foldl account t) (inputs.foldl step s).hashrate ∧
      (inputs.foldl step s).hashrate.tickTime = 4 := by
  induction inputs generalizing t s with
  | nil => exact ⟨h, htime⟩
  | cons input rest ih =>
      exact ih (counts_step h htime input) ((tickTime_step s input).trans htime)

end Stats

theorem counts_initial {w : ℕ} (tickTime : ℕ) :
    Counts {} ({ tickTime := tickTime } : TickingCounter w) where
  completed := rfl
  pending := rfl

/-- A window whose exact sum fits 64 bits is summed exactly when each of its ticks fits 32 bits. -/
theorem hashrate_exact (seconds : ℕ) :
    (∀ (id : ℕ) (name ip : String) (inputs : List Worker.Input),
      let worker := inputs.foldl Worker.step { id := id, name := name, ip := ip }
      let window := (inputs.foldl Worker.account {}).window (seconds / 4)
      window.sum < 2 ^ 64 →
        ((worker.hashrate.count seconds).toNat = window.sum ↔ ∀ d ∈ window, d < 2 ^ 32)) ∧
    (∀ inputs : List Stats.Input,
      let stats := inputs.foldl Stats.step {}
      let window := (inputs.foldl Stats.account {}).window (seconds / 4)
      window.sum < 2 ^ 64 →
        ((stats.hashrate.count seconds).toNat = window.sum ↔ ∀ d ∈ window, d < 2 ^ 32)) := by
  constructor
  · intro id name ip inputs worker window hfits
    obtain ⟨hcounts, htime⟩ := Worker.counts_run inputs (t := {})
      (s := { id := id, name := name, ip := ip }) (counts_initial 4)
    have hexact := hcounts.exact (by decide) seconds
    rw [htime] at hexact
    exact hexact hfits
  · intro inputs stats window hfits
    obtain ⟨hcounts, htime⟩ := Stats.counts_run inputs (t := {}) (s := {}) (counts_initial 4) rfl
    have hexact := hcounts.exact (by decide) seconds
    rw [htime] at hexact
    exact hexact hfits

/-- One share of difficulty 2 ^ 32 is not counted at all. -/
theorem hashrate_lost_share :
    ¬ ∀ (inputs : List Worker.Input) (seconds : ℕ),
      let worker := inputs.foldl Worker.step { id := 0, name := "", ip := "" }
      let window := (inputs.foldl Worker.account {}).window (seconds / 4)
      window.sum < 2 ^ 64 → (worker.hashrate.count seconds).toNat = window.sum := by
  intro h
  have hlost := h [.add 4294967296 0, .tick 4] 4 (by decide)
  exact absurd hlost (by decide)

end XmrigProxy
