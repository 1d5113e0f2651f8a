import Mathlib.Data.List.Basic
import Mathlib.Data.Nat.Notation
import Mathlib.Data.Prod.Lex
import Mathlib.Tactic.Common

/-!
# Incremental parsers

A parser takes items from the front of a buffer that grows with every read. It waits while the
buffer does not tell it what to do, and once it does, what is read later does not matter. Then the
way in which a stream is cut into reads does not matter either.
-/

namespace XmrigProxy

/-- What the parser makes of its buffer: `next` takes items away, and `stop` ends the parsing. -/
inductive Advance (σ ω : Type*) where
  | wait
  | next (state : σ) (consumed : ℕ) (out : List ω)
  | stop (state : σ) (out : List ω)

/-- What a step shows to the outside. -/
def Advance.out {σ ω : Type*} : Advance σ ω → List ω
  | .wait => []
  | .next _ _ out => out
  | .stop _ out => out

structure Parser (σ α ω : Type*) where
  step : σ → List α → Advance σ ω
  rank : σ → ℕ
  decreases : ∀ {s : σ} {buffer : List α} {s' : σ} {n : ℕ} {out : List ω},
    step s buffer = .next s' n out → n ≤ buffer.length ∧ (0 < n ∨ rank s' < rank s)
  stable : ∀ {s : σ} {buffer : List α} (more : List α),
    step s buffer ≠ .wait → step s (buffer ++ more) = step s buffer

/-- The parser between two reads. -/
structure Progress (σ α : Type*) where
  state : σ
  buffer : List α
  stopped : Bool

namespace Parser

variable {σ α ω : Type*} (p : Parser σ α ω)

def run (s : σ) (buffer : List α) : Progress σ α × List ω :=
  match _h : p.step s buffer with
  | .wait => (⟨s, buffer, false⟩, [])
  | .next s' n out => ((run s' (buffer.drop n)).1, out ++ (run s' (buffer.drop n)).2)
  | .stop s' out => (⟨s', [], true⟩, out)
termination_by (buffer.length, p.rank s)
decreasing_by
  all_goals
    obtain ⟨hn, hless⟩ := p.decreases _h
    rcases Nat.eq_zero_or_pos n with rfl | hpos
    · rw [List.drop_zero]
      exact Prod.Lex.right _ (hless.resolve_left (Nat.lt_irrefl 0))
    · apply Prod.Lex.left
      rw [List.length_drop]
      omega

def read (data : List α) (r : Progress σ α) : Progress σ α × List ω :=
  if r.stopped then (r, []) else p.run r.state (r.buffer ++ data)

def reads : List (List α) → Progress σ α → Progress σ α × List ω
  | [], r => (r, [])
  | data :: rest, r => ((reads rest (p.read data r).1).1,
      (p.read data r).2 ++ (reads rest (p.read data r).1).2)

/-- There is nothing to do before the next read. -/
def Settled (r : Progress σ α) : Prop := r.stopped = true ∨ p.step r.state r.buffer = .wait

section Rules

variable {p} {s s' : σ} {buffer : List α} {n : ℕ} {out : List ω}

theorem run_wait (h : p.step s buffer = .wait) : p.run s buffer = (⟨s, buffer, false⟩, []) := by
  rw [run]
  split
  · rfl
  · next heq => exact nomatch h.symm.trans heq
  · next heq => exact nomatch h.symm.trans heq

theorem run_next (h : p.step s buffer = .next s' n out) :
    p.run s buffer = ((p.run s' (buffer.drop n)).1, out ++ (p.run s' (buffer.drop n)).2) := by
  rw [run]
  split
  · next heq => exact nomatch h.symm.trans heq
  · next heq =>
      rw [h] at heq
      obtain ⟨rfl, rfl, rfl⟩ := Advance.next.inj heq
      rfl
  · next heq => exact nomatch h.symm.trans heq

theorem run_stop (h : p.step s buffer = .stop s' out) : p.run s buffer = (⟨s', [], true⟩, out) := by
  rw [run]
  split
  · next heq => exact nomatch h.symm.trans heq
  · next heq => exact nomatch h.symm.trans heq
  · next heq =>
      rw [h] at heq
      obtain ⟨rfl, rfl⟩ := Advance.stop.inj heq
      rfl

/-- Induction over the steps of a run. -/
@[elab_as_elim]
theorem run_induction {motive : σ → List α → Prop} (s : σ) (buffer : List α)
    (wait : ∀ s buffer, p.step s buffer = .wait → motive s buffer)
    (next : ∀ s buffer s' n out, p.step s buffer = .next s' n out → motive s' (buffer.drop n) →
      motive s buffer)
    (stop : ∀ s buffer s' out, p.step s buffer = .stop s' out → motive s buffer) :
    motive s buffer := by
  induction s, buffer using run.induct p with
  | case1 s buffer h => exact wait s buffer h
  | case2 s buffer s' n out h ih => exact next s buffer s' n out h ih
  | case3 s buffer s' out h => exact stop s buffer s' out h

theorem settled_run (s : σ) (buffer : List α) : p.Settled (p.run s buffer).1 := by
  induction s, buffer using run_induction (p := p) with
  | wait s buffer h =>
      rw [run_wait h]
      exact Or.inr h
  | next s buffer s' n out h ih =>
      rw [run_next h]
      exact ih
  | stop s buffer s' out h =>
      rw [run_stop h]
      exact Or.inl rfl

theorem settled_read {r : Progress σ α} (hr : p.Settled r) (data : List α) :
    p.Settled (p.read data r).1 := by
  unfold read
  split
  · exact hr
  · exact settled_run _ _

theorem buffer_of_stopped (s : σ) (buffer : List α) (h : (p.run s buffer).1.stopped = true) :
    (p.run s buffer).1.buffer = [] := by
  induction s, buffer using run_induction (p := p) with
  | wait s buffer hstep =>
      rw [run_wait hstep] at h
      exact nomatch h
  | next s buffer s' n out hstep ih =>
      rw [run_next hstep] at h ⊢
      exact ih h
  | stop s buffer s' out hstep => rw [run_stop hstep]

/-- What every step shows only is all that a run shows. -/
theorem run_out {P : ω → Prop} (h : ∀ s buffer, ∀ o ∈ (p.step s buffer).out, P o) (s : σ)
    (buffer : List α) : ∀ o ∈ (p.run s buffer).2, P o := by
  induction s, buffer using run_induction (p := p) with
  | wait s buffer hstep =>
      rw [run_wait hstep]
      exact fun o ho => absurd ho List.not_mem_nil
  | next s buffer s' n out hstep ih =>
      rw [run_next hstep]
      have hout := h s buffer
      rw [hstep] at hout
      intro o ho
      rcases List.mem_append.mp ho with hnow | hlater
      · exact hout o hnow
      · exact ih o hlater
  | stop s buffer s' out hstep =>
      rw [run_stop hstep]
      have hout := h s buffer
      rw [hstep] at hout
      exact hout

/-- What was read is done with in the same way, whatever comes later. -/
theorem run_append (s : σ) (buffer more : List α) : p.run s (buffer ++ more) =
    ((p.read more (p.run s buffer).1).1,
      (p.run s buffer).2 ++ (p.read more (p.run s buffer).1).2) := by
  induction s, buffer using run_induction (p := p) with
  | wait s buffer h =>
      rw [run_wait h]
      rfl
  | next s buffer s' n out h ih =>
      have hmore : p.step s (buffer ++ more) = .next s' n out := by
        rw [p.stable more (fun hwait => nomatch h.symm.trans hwait), h]
      rw [run_next h, run_next hmore, List.drop_append_of_le_length (p.decreases h).1, ih,
        List.append_assoc]
  | stop s buffer s' out h =>
      have hmore : p.step s (buffer ++ more) = .stop s' out := by
        rw [p.stable more (fun hwait => nomatch h.symm.trans hwait), h]
      rw [run_stop h, run_stop hmore]
      exact Prod.ext rfl (List.append_nil out).symm

theorem read_nil {r : Progress σ α} (hr : p.Settled r) : p.read [] r = (r, []) := by
  unfold read
  by_cases hstopped : r.stopped = true
  · rw [if_pos hstopped]
  · rw [if_neg hstopped, List.append_nil, run_wait (hr.resolve_left hstopped)]
    rw [Bool.not_eq_true] at hstopped
    rw [← hstopped]

theorem read_append {r : Progress σ α} (xs ys : List α) : p.read (xs ++ ys) r =
    ((p.read ys (p.read xs r).1).1, (p.read xs r).2 ++ (p.read ys (p.read xs r).1).2) := by
  by_cases hstopped : r.stopped = true
  · have hread : ∀ data, p.read data r = (r, []) := fun data => by
      unfold read
      rw [if_pos hstopped]
    rw [hread, hread, hread]
    rfl
  · have hread : ∀ data, p.read data r = p.run r.state (r.buffer ++ data) := fun data => by
      unfold read
      rw [if_neg hstopped]
    rw [hread, hread xs, ← List.append_assoc, run_append]

/-- Only the stream counts, not the reads in which it comes. -/
theorem reads_eq {r : Progress σ α} (hr : p.Settled r) (chunks : List (List α)) :
    p.reads chunks r = p.read chunks.flatten r := by
  induction chunks generalizing r with
  | nil => exact (read_nil hr).symm
  | cons data rest ih =>
      rw [List.flatten_cons, read_append, ← ih (settled_read hr data)]
      rfl

theorem reads_out {P : ω → Prop} (h : ∀ s buffer, ∀ o ∈ (p.step s buffer).out, P o)
    {r : Progress σ α} (hr : p.Settled r) (chunks : List (List α)) :
    ∀ o ∈ (p.reads chunks r).2, P o := by
  rw [reads_eq hr]
  unfold read
  split
  · exact fun o ho => absurd ho List.not_mem_nil
  · exact run_out h _ _

end Rules

end Parser

end XmrigProxy
