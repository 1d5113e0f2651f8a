import Mathlib.Data.Nat.Notation
import Mathlib.Tactic.Common

/-!
# Assignments in place

A sequence of assignments, each of which makes one place from another, is done in the place where
everything is. If nothing is read after it was overwritten, it makes no difference that the
assignments are not done at once.
-/

namespace XmrigProxy.InPlace

/-- `dest` is made from `source`. -/
structure Move (n : ℕ) (β : Type*) where
  dest : Fin n
  source : Fin n
  tag : β
  deriving DecidableEq

variable {n : ℕ} {α β : Type*}

def run (op : β → α → α) (moves : List (Move n β)) (st : Vector α n) : Vector α n :=
  moves.foldl (fun st m => st.set m.dest (op m.tag st[m.source])) st

/-- Nothing is read or made after it was made. -/
def Independent (moves : List (Move n β)) : Prop :=
  moves.Pairwise fun m m' => m'.source ≠ m.dest ∧ m'.dest ≠ m.dest

instance (moves : List (Move n β)) : Decidable (Independent moves) :=
  inferInstanceAs (Decidable (moves.Pairwise _))

/-- Every place is made from what there was at first. -/
theorem getElem_run (op : β → α → α) {moves : List (Move n β)} (h : Independent moves)
    (st : Vector α n) (i : Fin n) :
    (run op moves st)[i] =
      ((moves.find? fun m => m.dest = i).elim st[i] fun m => op m.tag st[m.source]) := by
  induction moves generalizing st with
  | nil => rfl
  | cons m moves ih =>
      obtain ⟨hm, hmoves⟩ := List.pairwise_cons.mp h
      rw [run, List.foldl_cons]
      change (run op moves _)[i] = _
      rw [ih hmoves, List.find?_cons]
      by_cases hi : m.dest = i
      · have hnone : (moves.find? fun m => m.dest = i) = none := by
          rw [List.find?_eq_none]
          intro m' hm' hdest
          exact (hm m' hm').2 (by simpa [hi] using hdest)
        subst hi
        rw [hnone]
        simp
      · rw [show decide (m.dest = i) = false by simpa using hi]
        have hset : ∀ j : Fin n, m.dest ≠ j →
            (st.set m.dest (op m.tag st[m.source]))[j] = st[j] := by
          intro j hj
          exact Vector.getElem_set_ne _ _ (fun heq => hj (Fin.ext heq))
        cases hfind : moves.find? fun m => m.dest = i with
        | none => exact hset i hi
        | some m' =>
            have hm' := hm m' (List.mem_of_find?_eq_some hfind)
            dsimp only [Option.elim]
            rw [hset _ fun heq => hm'.1 heq.symm]

end XmrigProxy.InPlace
