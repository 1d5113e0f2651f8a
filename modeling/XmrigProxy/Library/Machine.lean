import Mathlib.Logic.Basic
import Mathlib.Data.Nat.Notation
import Mathlib.Tactic.Common

/-!
# Deterministic machines driven by event streams

A machine consumes an arbitrary stream of events, one at a time, and emits a list
of observations at every step. Events that a program ignores are steps that leave
the state unchanged, so every stream is a run and no enabledness side condition is
carried around. The rules below are the induction principles for safety properties
of such runs.
-/

namespace XmrigProxy

/-- A state transformer that also reports what it did. -/
abbrev Handler (σ ω : Type*) := σ → σ × List ω

namespace Handler

variable {σ ω α : Type*}

def skip : Handler σ ω := fun s => (s, [])

def seq (f g : Handler σ ω) : Handler σ ω := fun s =>
  ((g (f s).1).1, (f s).2 ++ (g (f s).1).2)

@[simp] theorem skip_seq (f : Handler σ ω) : seq skip f = f := rfl

def forEach (f : α → Handler σ ω) : List α → Handler σ ω
  | [] => skip
  | a :: rest => seq (f a) (forEach f rest)

/-- `P`, read on the state and everything reported so far, survives the handler. -/
def Preserves (P : σ → List ω → Prop) (f : Handler σ ω) : Prop :=
  ∀ s tr, P s tr → P (f s).1 (tr ++ (f s).2)

theorem preserves_skip (P : σ → List ω → Prop) : Preserves P skip := by
  intro s tr h
  simpa [skip] using h

theorem Preserves.seq {P : σ → List ω → Prop} {f g : Handler σ ω}
    (hf : Preserves P f) (hg : Preserves P g) : Preserves P (seq f g) := by
  intro s tr h
  have := hg _ _ (hf s tr h)
  simpa [Handler.seq, List.append_assoc] using this

theorem Preserves.forEach {P : σ → List ω → Prop} {f : α → Handler σ ω}
    (hf : ∀ a, Preserves P (f a)) (l : List α) : Preserves P (forEach f l) := by
  induction l with
  | nil => exact preserves_skip P
  | cons a rest ih => exact (hf a).seq ih

/-- `Q` holds after the handler whenever `P` held before it. -/
def Leads (P Q : σ → List ω → Prop) (f : Handler σ ω) : Prop :=
  ∀ s tr, P s tr → Q (f s).1 (tr ++ (f s).2)

theorem Leads.seq {P Q R : σ → List ω → Prop} {f g : Handler σ ω}
    (hf : Leads P Q f) (hg : Leads Q R g) : Leads P R (seq f g) := by
  intro s tr h
  have := hg _ _ (hf s tr h)
  simpa [Handler.seq, List.append_assoc] using this

theorem Preserves.ite {P : σ → List ω → Prop} {f g : Handler σ ω} (c : σ → Prop)
    [DecidablePred c] (hf : Preserves P f) (hg : Preserves P g) :
    Preserves P fun s => if c s then f s else g s := by
  intro s tr h
  by_cases hc : c s
  · simpa [hc] using hf s tr h
  · simpa [hc] using hg s tr h

end Handler

section Traces

variable {ω : Type*}

/-- Every observation of a trace is acceptable after the ones before it. -/
def Along (P : List ω → ω → Prop) (tr : List ω) : Prop :=
  ∀ before o after, tr = before ++ o :: after → P before o

variable {P : List ω → ω → Prop} {tr : List ω}

theorem along_nil (P : List ω → ω → Prop) : Along P [] := by
  intro before o after h
  simp at h

theorem Along.snoc (h : Along P tr) {o : ω} (ho : P tr o) : Along P (tr ++ [o]) := by
  intro before o' after heq
  rcases List.eq_nil_or_concat after with rfl | ⟨init, last, rfl⟩
  · obtain ⟨rfl, heq⟩ := List.append_inj' heq rfl
    obtain rfl : o = o' := by simpa using heq
    exact ho
  · rw [List.concat_eq_append, ← List.cons_append, ← List.append_assoc] at heq
    obtain ⟨rfl, -⟩ := List.append_inj' heq rfl
    exact h before o' init rfl

/-- Observations that are acceptable anywhere may be appended. -/
theorem Along.append (h : Along P tr) {out : List ω} (hout : ∀ o ∈ out, ∀ before, P before o) :
    Along P (tr ++ out) := by
  induction out generalizing tr with
  | nil => simpa using h
  | cons o rest ih =>
      have := ih (h.snoc (hout o List.mem_cons_self tr))
        fun o' ho' => hout o' (List.mem_cons_of_mem _ ho')
      simpa using this

/-- What was observed after any trigger satisfies `Q`. -/
def Since (T : ω → Prop) (Q : List ω → Prop) (tr : List ω) : Prop :=
  ∀ before o after, T o → tr = before ++ o :: after → Q after

variable {T : ω → Prop} {Q Q' : List ω → Prop}

theorem since_nil (T : ω → Prop) (Q : List ω → Prop) : Since T Q [] := by
  intro before o after _ h
  simp at h

theorem since_true (T : ω → Prop) (tr : List ω) : Since T (fun _ => True) tr :=
  fun _ _ _ _ _ => trivial

theorem Since.mono (h : Since T Q tr) (hQ : ∀ after, Q after → Q' after) : Since T Q' tr :=
  fun before o after ho heq => hQ after (h before o after ho heq)

theorem Since.append (h : Since T Q tr) {out : List ω} (hout : ∀ o ∈ out, ¬ T o)
    (hQ : ∀ after, Q after → Q' (after ++ out)) : Since T Q' (tr ++ out) := by
  intro before o after ho heq
  rcases List.append_eq_append_iff.mp heq with ⟨l, -, hl⟩ | ⟨l, hl, hrest⟩
  · exact absurd ho (hout o (by simp [hl]))
  · rcases l with _ | ⟨x, l⟩
    · exact absurd ho (hout o (by rw [← List.nil_append out, ← hrest]; simp))
    · obtain ⟨rfl, rfl⟩ := List.cons_eq_cons.mp hrest
      exact hQ l (h before _ l ho hl)

end Traces

structure Machine (σ ε ω : Type*) where
  init : σ
  next : σ → ε → σ × List ω

/-- The stream that follows a script and then idles. -/
def follow {ε : Type*} (script : List ε) (idle : ε) (k : ℕ) : ε := script.getD k idle

namespace Machine

variable {σ ε ω : Type*} (m : Machine σ ε ω)

def state (es : ℕ → ε) : ℕ → σ
  | 0 => m.init
  | k + 1 => (m.next (state es k) (es k)).1

/-- The observations of step `k`, made in the state reached after `k` steps. -/
def emitted (es : ℕ → ε) (k : ℕ) : List ω := (m.next (m.state es k) (es k)).2

/-- Everything observed strictly before step `k`, oldest first. -/
def trace (es : ℕ → ε) : ℕ → List ω
  | 0 => []
  | k + 1 => trace es k ++ m.emitted es k

@[simp] theorem state_zero (es : ℕ → ε) : m.state es 0 = m.init := rfl

theorem state_succ (es : ℕ → ε) (k : ℕ) :
    m.state es (k + 1) = (m.next (m.state es k) (es k)).1 := rfl

@[simp] theorem trace_zero (es : ℕ → ε) : m.trace es 0 = [] := rfl

theorem trace_succ (es : ℕ → ε) (k : ℕ) :
    m.trace es (k + 1) = m.trace es k ++ m.emitted es k := rfl

theorem mem_trace {es : ℕ → ε} {k : ℕ} {o : ω} :
    o ∈ m.trace es k ↔ ∃ j < k, o ∈ m.emitted es j := by
  induction k with
  | zero => simp
  | succ k ih =>
      rw [trace_succ, List.mem_append, ih]
      constructor
      · rintro (⟨j, hj, h⟩ | h)
        · exact ⟨j, by omega, h⟩
        · exact ⟨k, by omega, h⟩
      · rintro ⟨j, hj, h⟩
        rcases Nat.lt_succ_iff_lt_or_eq.mp hj with hj | rfl
        · exact Or.inl ⟨j, hj, h⟩
        · exact Or.inr h

theorem trace_mono {es : ℕ → ε} {j k : ℕ} (hjk : j ≤ k) :
    m.trace es j <+: m.trace es k := by
  induction k with
  | zero =>
      obtain rfl := Nat.le_zero.mp hjk
      exact List.prefix_rfl
  | succ k ih =>
      rcases Nat.le_succ_iff.mp hjk with hjk | rfl
      · exact (ih hjk).trans ⟨_, rfl⟩
      · exact List.prefix_rfl

/-- An observation of a trace is made in one of the steps, among the observations of that step. -/
theorem trace_split {es : ℕ → ε} {k : ℕ} {o : ω} {xs ys : List ω}
    (h : m.trace es k = xs ++ o :: ys) :
    ∃ i < k, ∃ pre post rest, m.emitted es i = pre ++ o :: post ∧ xs = m.trace es i ++ pre ∧
      ys = post ++ rest ∧ ∀ o' ∈ rest, ∃ l, i < l ∧ l < k ∧ o' ∈ m.emitted es l := by
  induction k generalizing ys with
  | zero => simp at h
  | succ k ih =>
      rw [trace_succ] at h
      rcases List.append_eq_append_iff.mp h with ⟨pre, rfl, hlast⟩ | ⟨c, hinit, hrest⟩
      · exact ⟨k, Nat.lt_succ_self k, pre, ys, [], hlast, rfl, by simp, by simp⟩
      · cases c with
        | nil =>
            rw [List.append_nil] at hinit
            exact ⟨k, Nat.lt_succ_self k, [], ys, [], hrest.symm, by simp [hinit], by simp, by simp⟩
        | cons o' c =>
            obtain ⟨rfl, rfl⟩ := List.cons.inj hrest
            obtain ⟨i, hi, pre, post, rest, hemitted, hxs, rfl, hlater⟩ := ih hinit
            refine ⟨i, by omega, pre, post, rest ++ m.emitted es k, hemitted, hxs, by simp, ?_⟩
            intro o' ho'
            rcases List.mem_append.mp ho' with ho' | ho'
            · obtain ⟨l, hil, hlk, hl⟩ := hlater o' ho'
              exact ⟨l, hil, by omega, hl⟩
            · exact ⟨k, hi, Nat.lt_succ_self k, ho'⟩

section Invariants

variable {m} {es : ℕ → ε}

theorem invariant {P : σ → Prop} (h0 : P m.init)
    (hstep : ∀ s e, P s → P (m.next s e).1) (k : ℕ) : P (m.state es k) := by
  induction k with
  | zero => exact h0
  | succ k ih => exact hstep _ _ ih

/-- The state together with everything observed so far. -/
theorem invariant_trace {P : σ → List ω → Prop} (h0 : P m.init [])
    (hstep : ∀ s tr e, P s tr → P (m.next s e).1 (tr ++ (m.next s e).2)) (k : ℕ) :
    P (m.state es k) (m.trace es k) := by
  induction k with
  | zero => exact h0
  | succ k ih => exact hstep _ _ _ ih

/-- The same rule for runs all of whose steps satisfy a guard. -/
theorem invariant_guarded {G : σ → ε → Prop} {P : σ → List ω → Prop}
    (h0 : P m.init [])
    (hstep : ∀ s tr e, G s e → P s tr → P (m.next s e).1 (tr ++ (m.next s e).2))
    (k : ℕ) (hguard : ∀ j < k, G (m.state es j) (es j)) :
    P (m.state es k) (m.trace es k) := by
  induction k with
  | zero => exact h0
  | succ k ih =>
      exact hstep _ _ _ (hguard k (Nat.lt_succ_self k))
        (ih fun j hj => hguard j (Nat.lt_succ_of_lt hj))

/-- A fact established at step `i` holds until `j` when every step in between keeps it. -/
theorem persists {P : σ → Prop} {i j : ℕ} (hij : i ≤ j) (hi : P (m.state es i))
    (hstep : ∀ k, i ≤ k → k < j → P (m.state es k) → P (m.state es (k + 1))) :
    P (m.state es j) := by
  induction j with
  | zero => rwa [Nat.le_zero.mp hij] at hi
  | succ j ih =>
      rcases Nat.le_succ_iff.mp hij with hle | rfl
      · exact hstep j hle (Nat.lt_succ_self j)
          (ih hle fun k hik hkj => hstep k hik (Nat.lt_succ_of_lt hkj))
      · exact hi

/-- The step at which a property that fails at `i` and holds at `j` was last established. -/
theorem origin {P : σ → Prop} {i j : ℕ} (hij : i ≤ j) (hi : ¬ P (m.state es i))
    (hj : P (m.state es j)) :
    ∃ k, i ≤ k ∧ k < j ∧ ¬ P (m.state es k) ∧ ∀ l, k < l → l ≤ j → P (m.state es l) := by
  induction j with
  | zero => exact absurd (Nat.le_zero.mp hij ▸ hj) hi
  | succ j ih =>
      rcases Nat.le_succ_iff.mp hij with hle | rfl
      · by_cases hp : P (m.state es j)
        · obtain ⟨k, hik, hkj, hk, hl⟩ := ih hle hp
          refine ⟨k, hik, by omega, hk, fun l hkl hlj => ?_⟩
          rcases Nat.le_succ_iff.mp hlj with hlj | rfl
          · exact hl l hkl hlj
          · exact hj
        · refine ⟨j, hle, Nat.lt_succ_self j, hp, fun l hjl hlj => ?_⟩
          obtain rfl : l = j + 1 := by omega
          exact hj
      · exact absurd hj hi

end Invariants

end Machine

end XmrigProxy
