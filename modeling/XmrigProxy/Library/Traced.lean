import Mathlib.Data.List.Infix
import Mathlib.Logic.Basic
import Mathlib.Data.Nat.Notation
import Mathlib.Tactic.Common

/-!
# Computations that leave a trace

A computation may stop early, and it records every access that it makes, also those before
it stopped. The rules compare a computation with an idealised one, and bound what it accesses.
A program that asks for everything it reads is run against a source of answers, and depends on
nothing but the answers to what it asked.
-/

namespace XmrigProxy

structure Traced (ε ω α : Type*) where
  outcome : Except ε α
  log : List ω

namespace Traced

variable {ε ω : Type} {α β : Type}

def bind (m : Traced ε ω α) (f : α → Traced ε ω β) : Traced ε ω β :=
  match m.outcome with
  | .ok a => ⟨(f a).outcome, m.log ++ (f a).log⟩
  | .error e => ⟨.error e, m.log⟩

instance : Monad (Traced ε ω) where
  pure a := ⟨.ok a, []⟩
  bind := bind

def stop (e : ε) : Traced ε ω α := ⟨.error e, []⟩

def tell (log : List ω) : Traced ε ω Unit := ⟨.ok (), log⟩

def cons (x : ω) (m : Traced ε ω α) : Traced ε ω α := ⟨m.outcome, x :: m.log⟩

theorem cons_bind (x : ω) (m : Traced ε ω α) (f : α → Traced ε ω β) :
    bind (m.cons x) f = (bind m f).cons x := by
  unfold bind cons
  dsimp only
  cases m.outcome with
  | ok a => rfl
  | error e => rfl

theorem bind_ok {m : Traced ε ω α} {f : α → Traced ε ω β} {a : α} (h : m.outcome = .ok a) :
    m >>= f = ⟨(f a).outcome, m.log ++ (f a).log⟩ := by
  change bind m f = _
  unfold bind
  rw [h]

theorem bind_error {m : Traced ε ω α} {f : α → Traced ε ω β} {e : ε}
    (h : m.outcome = .error e) : m >>= f = ⟨.error e, m.log⟩ := by
  change bind m f = _
  unfold bind
  rw [h]

/-- What is recorded stays recorded. -/
theorem log_bind_left {m : Traced ε ω α} {f : α → Traced ε ω β} {x : ω} (h : x ∈ m.log) :
    x ∈ (m >>= f).log := by
  cases hm : m.outcome with
  | ok a =>
      rw [bind_ok hm]
      exact List.mem_append_left _ h
  | error e =>
      rw [bind_error hm]
      exact h

theorem outcome_bind_ok {m : Traced ε ω α} {f : α → Traced ε ω β} {b : β}
    (h : (m >>= f).outcome = .ok b) : ∃ a, m.outcome = .ok a ∧ (f a).outcome = .ok b := by
  cases hm : m.outcome with
  | ok a =>
      rw [bind_ok hm] at h
      exact ⟨a, rfl, h⟩
  | error e =>
      rw [bind_error hm] at h
      cases h

section Results

/-- The result, if there is one, satisfies `Q`. -/
def Yields (Q : α → Prop) (m : Traced ε ω α) : Prop := ∀ a, m.outcome = .ok a → Q a

variable {Q : α → Prop} {R : β → Prop} {m : Traced ε ω α} {f : α → Traced ε ω β}

theorem yields_pure {a : α} (h : Q a) : Yields Q (pure a : Traced ε ω α) := by
  intro b hb
  cases hb
  exact h

theorem yields_stop (e : ε) : Yields Q (stop e : Traced ε ω α) := by
  intro a ha
  cases ha

theorem Yields.bind (hm : Yields Q m) (hf : ∀ a, Q a → Yields R (f a)) : Yields R (m >>= f) := by
  intro b hb
  obtain ⟨a, ha, hb⟩ := outcome_bind_ok hb
  exact hf a (hm a ha) b hb

theorem Yields.mono {Q' : α → Prop} (hm : Yields Q m) (h : ∀ a, Q a → Q' a) : Yields Q' m :=
  fun a ha => h a (hm a ha)

end Results

section Ideal

variable {P S : ω → Prop} {E : ε → Prop} {Q : α → Prop} {R : β → Prop}

/-- An early stop is one of those that `E` allows. -/
def Stops (E : ε → Prop) (m : Traced ε ω α) : Prop := ∀ e, m.outcome = .error e → E e

/-- Either the ideal computation stays within its bounds `P`, and the actual one is the same, safe,
and stops early only as allowed; or it does not, and the actual one is unsafe. -/
def Agrees (P S : ω → Prop) (E : ε → Prop) (Q : α → Prop) (m i : Traced ε ω α) : Prop :=
  (m = i ∧ (∀ x ∈ i.log, P x ∧ S x) ∧ Stops E i ∧ Yields Q i) ∨
    ((∃ x ∈ i.log, ¬ P x) ∧ ∃ x ∈ m.log, ¬ S x)

theorem agrees_pure {a : α} (h : Q a) : Agrees P S E Q (pure a : Traced ε ω α) (pure a) := by
  refine Or.inl ⟨rfl, fun _ hx => absurd hx List.not_mem_nil, fun _ he => ?_, yields_pure h⟩
  cases he

theorem agrees_stop {e : ε} (h : E e) : Agrees P S E Q (stop e : Traced ε ω α) (stop e) := by
  refine Or.inl ⟨rfl, fun _ hx => absurd hx List.not_mem_nil, fun e' he => ?_, yields_stop e⟩
  cases he
  exact h

theorem Agrees.bind {m i : Traced ε ω α} {f g : α → Traced ε ω β} (hm : Agrees P S E Q m i)
    (hf : ∀ a, Q a → Agrees P S E R (f a) (g a)) : Agrees P S E R (m >>= f) (i >>= g) := by
  rcases hm with ⟨rfl, hlog, hstops, hq⟩ | ⟨⟨x, hx, hP⟩, ⟨y, hy, hS⟩⟩
  · cases hm : m.outcome with
    | error e =>
        rw [bind_error hm, bind_error hm]
        refine Or.inl ⟨rfl, hlog, fun e' he => ?_, fun _ hb => by cases hb⟩
        cases he
        exact hstops e hm
    | ok a =>
        rw [bind_ok hm, bind_ok hm]
        rcases hf a (hq a hm) with ⟨heq, hlog', hstops', hr⟩ | ⟨⟨x, hx, hP⟩, ⟨y, hy, hS⟩⟩
        · rw [heq]
          refine Or.inl ⟨rfl, fun x hx => ?_, hstops', hr⟩
          rcases List.mem_append.mp hx with hx | hx
          · exact hlog x hx
          · exact hlog' x hx
        · exact Or.inr ⟨⟨x, List.mem_append_right _ hx, hP⟩, ⟨y, List.mem_append_right _ hy, hS⟩⟩
  · exact Or.inr ⟨⟨x, log_bind_left hx, hP⟩, ⟨y, log_bind_left hy, hS⟩⟩

theorem Agrees.mono {Q' : α → Prop} {m i : Traced ε ω α} (hm : Agrees P S E Q m i)
    (h : ∀ a, Q a → Q' a) : Agrees P S E Q' m i := by
  rcases hm with ⟨heq, hlog, hstops, hq⟩ | hm
  · exact Or.inl ⟨heq, hlog, hstops, hq.mono h⟩
  · exact Or.inr hm

theorem Agrees.ite {c : Prop} [Decidable c] {m m' i i' : Traced ε ω α}
    (ht : c → Agrees P S E Q m i) (hf : ¬ c → Agrees P S E Q m' i') :
    Agrees P S E Q (if c then m else m') (if c then i else i') := by
  by_cases hc : c
  · rw [if_pos hc, if_pos hc]
    exact ht hc
  · rw [if_neg hc, if_neg hc]
    exact hf hc

/-- A computation that records one access, which is safe exactly when it is within its bounds. -/
theorem agrees_check {x : ω} {outcome : Except ε α} (hiff : P x ↔ S x)
    (hstops : P x → ∀ e, outcome = .error e → E e) (hyields : P x → ∀ a, outcome = .ok a → Q a) :
    Agrees P S E Q ⟨outcome, [x]⟩ ⟨outcome, [x]⟩ := by
  by_cases hx : P x
  · refine Or.inl ⟨rfl, fun y hy => ?_, hstops hx, hyields hx⟩
    obtain rfl := List.mem_singleton.mp hy
    exact ⟨hx, hiff.mp hx⟩
  · exact Or.inr ⟨⟨x, List.mem_singleton_self x, hx⟩,
      ⟨x, List.mem_singleton_self x, mt hiff.mpr hx⟩⟩

end Ideal

section Fuel

/-- The second computation goes on where the first one ran out of fuel. -/
def Extends (e : ε) (m m' : Traced ε ω α) : Prop :=
  m = m' ∨ (m.outcome = .error e ∧ m.log <+: m'.log)

theorem extends_refl (e : ε) (m : Traced ε ω α) : Extends e m m := Or.inl rfl

theorem Extends.bind {e : ε} {m m' : Traced ε ω α} {f f' : α → Traced ε ω β}
    (hm : Extends e m m') (hf : ∀ a, Extends e (f a) (f' a)) : Extends e (m >>= f) (m' >>= f') := by
  rcases hm with rfl | ⟨hstop, hprefix⟩
  · cases hm : m.outcome with
    | error e' =>
        rw [bind_error hm, bind_error hm]
        exact Or.inl rfl
    | ok a =>
        rw [bind_ok hm, bind_ok hm]
        rcases hf a with heq | ⟨hstop, hprefix⟩
        · rw [heq]
          exact Or.inl rfl
        · exact Or.inr ⟨hstop, (List.prefix_append_right_inj _).mpr hprefix⟩
  · rw [bind_error hstop]
    refine Or.inr ⟨rfl, hprefix.trans ?_⟩
    cases hm : m'.outcome with
    | error e' =>
        rw [bind_error hm]
    | ok a =>
        rw [bind_ok hm]
        exact List.prefix_append _ _

end Fuel

end Traced

inductive Ask (ε ω ι ρ α : Type) where
  | pure (a : α)
  | stop (e : ε)
  | tell (x : ω) (next : Ask ε ω ι ρ α)
  | ask (i : ι) (next : ρ → Ask ε ω ι ρ α)

/-- What answers the questions, and how each of them is recorded. -/
structure Source (ε ω ι ρ : Type) where
  answer : ι → Except ε ρ
  note : ι → ω

namespace Ask

variable {ε ω ι ρ α β : Type}

def bind : Ask ε ω ι ρ α → (α → Ask ε ω ι ρ β) → Ask ε ω ι ρ β
  | .pure a, f => f a
  | .stop e, _ => .stop e
  | .tell x next, f => .tell x (bind next f)
  | .ask i next, f => .ask i fun r => bind (next r) f

instance : Monad (Ask ε ω ι ρ) where
  pure := .pure
  bind := bind

def record (x : ω) : Ask ε ω ι ρ Unit := .tell x (.pure ())

def question (i : ι) : Ask ε ω ι ρ ρ := .ask i .pure

def run (source : Source ε ω ι ρ) : Ask ε ω ι ρ α → Traced ε ω α
  | .pure a => Pure.pure a
  | .stop e => Traced.stop e
  | .tell x next => (run source next).cons x
  | .ask i next =>
      match source.answer i with
      | .ok r => (run source (next r)).cons (source.note i)
      | .error e => (Traced.stop e).cons (source.note i)

section Run

variable {source : Source ε ω ι ρ}

theorem run_stop (e : ε) : run source (.stop e : Ask ε ω ι ρ α) = Traced.stop e := rfl

theorem run_record (x : ω) : run source (record x) = Traced.tell [x] := rfl

theorem run_ask {i : ι} {r : ρ} {next : ρ → Ask ε ω ι ρ α} (h : source.answer i = .ok r) :
    run source (.ask i next) = (run source (next r)).cons (source.note i) := by
  rw [run, h]

theorem run_ask_error {i : ι} {e : ε} {next : ρ → Ask ε ω ι ρ α} (h : source.answer i = .error e) :
    run source (.ask i next) = (Traced.stop e).cons (source.note i) := by
  rw [run, h]

theorem run_bind (m : Ask ε ω ι ρ α) (f : α → Ask ε ω ι ρ β) :
    run source (m >>= f) = run source m >>= fun a => run source (f a) := by
  change run source (bind m f) = Traced.bind (run source m) fun a => run source (f a)
  induction m with
  | pure a => rfl
  | stop e => rfl
  | tell x next ih =>
      change (run source (bind next f)).cons x = Traced.bind ((run source next).cons x) _
      rw [ih, Traced.cons_bind]
  | ask i next ih =>
      change run source (.ask i fun r => bind (next r) f) = _
      cases h : source.answer i with
      | error e =>
          rw [run_ask_error h, run_ask_error h]
          rfl
      | ok r => rw [run_ask h, run_ask h, ih r, Traced.cons_bind]

theorem outcome_bind_ok {m : Ask ε ω ι ρ α} {f : α → Ask ε ω ι ρ β} {a : α}
    (h : (run source m).outcome = .ok a) :
    (run source (m >>= f)).outcome = (run source (f a)).outcome := by
  rw [run_bind, Traced.bind_ok h]

theorem outcome_bind_error {m : Ask ε ω ι ρ α} {f : α → Ask ε ω ι ρ β} {e : ε}
    (h : (run source m).outcome = .error e) : (run source (m >>= f)).outcome = .error e := by
  rw [run_bind, Traced.bind_error h]

theorem outcome_question {i : ι} {r : ρ} (h : source.answer i = .ok r) :
    (run source (question i)).outcome = .ok r := by
  rw [question, run_ask h]
  rfl

/-- A run depends on the answers to the questions it asks, and on no others. -/
theorem run_congr {other : Source ε ω ι ρ} (hnote : other.note = source.note)
    {m : Ask ε ω ι ρ α}
    (h : ∀ i, source.note i ∈ (run source m).log → other.answer i = source.answer i) :
    run other m = run source m := by
  induction m with
  | pure a => rfl
  | stop e => rfl
  | tell x next ih =>
      change (run other next).cons x = (run source next).cons x
      rw [ih fun i hi => h i (List.mem_cons_of_mem _ hi)]
  | ask i next ih =>
      cases hanswer : source.answer i with
      | error e =>
          rw [run_ask_error hanswer] at h ⊢
          have hother := (h i List.mem_cons_self).trans hanswer
          rw [run_ask_error hother, hnote]
      | ok r =>
          rw [run_ask hanswer] at h ⊢
          have hother := (h i List.mem_cons_self).trans hanswer
          rw [run_ask hother, hnote, ih r fun j hj => h j (List.mem_cons_of_mem _ hj)]

end Run

end Ask

end XmrigProxy
