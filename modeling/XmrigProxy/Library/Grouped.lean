import Mathlib.Data.List.Sublists
import Mathlib.Tactic.Common

/-!
# Grouped lists

Lists in which certain values do not come back: between two occurrences of such a value there is
nothing else. Every part of a grouped list is grouped, and a list stays grouped when its last value
is repeated or a new one is added.
-/

namespace XmrigProxy

def Grouped {α : Type*} (P : α → Prop) (l : List α) : Prop :=
  ∀ x y, P x → List.Sublist [x, y, x] l → x = y

namespace Grouped

variable {α : Type*} {P : α → Prop} {l l' : List α} {a : α}

theorem sublist (h : Grouped P l) (hsub : l'.Sublist l) : Grouped P l' :=
  fun x y hx hxyx => h x y hx (hxyx.trans hsub)

/-- What a part of a list with one more value is made of. -/
theorem sublist_snoc {p : List α} {x : α} (h : List.Sublist (p ++ [x]) (l ++ [a])) :
    List.Sublist (p ++ [x]) l ∨ x = a ∧ p.Sublist l := by
  have hreverse := List.reverse_sublist.mpr h
  rw [List.reverse_append, List.reverse_append] at hreverse
  change List.Sublist (x :: p.reverse) (a :: l.reverse) at hreverse
  cases hreverse with
  | cons _ hrest =>
      refine Or.inl (List.reverse_sublist.mp ?_)
      rw [List.reverse_append]
      exact hrest
  | cons_cons _ hrest => exact Or.inr ⟨rfl, List.reverse_sublist.mp hrest⟩

theorem snoc_new (h : Grouped P l) (hnew : P a → a ∉ l) : Grouped P (l ++ [a]) := by
  intro x y hx hsub
  rcases sublist_snoc (p := [x, y]) hsub with hold | ⟨rfl, hpair⟩
  · exact h x y hx hold
  · exact absurd (hpair.subset List.mem_cons_self) (hnew hx)

theorem snoc_last (h : Grouped P (l ++ [a])) : Grouped P (l ++ [a] ++ [a]) := by
  intro x y hx hsub
  rcases sublist_snoc (p := [x, y]) hsub with hold | ⟨rfl, hpair⟩
  · exact h x y hx hold
  · rcases sublist_snoc (p := [x]) hpair with hone | ⟨rfl, -⟩
    · exact h x y hx (hone.append (List.Sublist.refl [x]))
    · rfl

/-- A value that is already there can only follow itself. -/
theorem eq_of_mem {b : α} (h : Grouped P (l ++ [a] ++ [b])) (hb : P b) (hmem : b ∈ l ++ [a]) :
    b = a := by
  rcases List.mem_append.mp hmem with hmem | hmem
  · apply h b a hb
    have hpart := (List.singleton_sublist.mpr hmem).append (List.Sublist.refl [a])
    exact hpart.append (List.Sublist.refl [b])
  · exact List.mem_singleton.mp hmem

end Grouped

end XmrigProxy
