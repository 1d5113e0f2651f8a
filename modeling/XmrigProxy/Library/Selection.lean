import Mathlib.Data.List.Nodup
import Mathlib.Data.List.Perm.Subperm
import Mathlib.Order.Basic
import Mathlib.Tactic.Common

/-!
# The greatest elements

A selection of `n` elements of greatest score, of which there may be several where scores are equal.
What was never selected may be forgotten: a selection from what is kept and one new element is one
from all elements there ever were.
-/

namespace XmrigProxy

/-- `top` consists of `n` elements of `all` of greatest score, or of all elements if there are
fewer. -/
structure Selects {α β : Type*} [LE β] (n : ℕ) (score : α → β) (all top : List α) : Prop where
  nodup : top.Nodup
  subset : top ⊆ all
  length : top.length = min n all.length
  greatest : ∀ x ∈ top, ∀ y ∈ all, y ∉ top → score y ≤ score x

namespace Selects

variable {α β : Type*} {n : ℕ} {score : α → β} {all top : List α}

theorem congr [LE β] {all' top' : List α} (h : Selects n score all top) (hall : all.Perm all')
    (htop : top.Perm top') : Selects n score all' top' where
  nodup := htop.nodup_iff.mp h.nodup
  subset := fun _ hx => hall.subset (h.subset (htop.symm.subset hx))
  length := by rw [← htop.length_eq, ← hall.length_eq, h.length]
  greatest := by
    intro x hx y hy hnot
    exact h.greatest x (htop.symm.subset hx) y (hall.symm.subset hy) fun hmem =>
      hnot (htop.subset hmem)

theorem nil [LE β] (n : ℕ) (score : α → β) : Selects n score [] [] where
  nodup := List.nodup_nil
  subset := List.nil_subset _
  length := (Nat.min_zero n).symm
  greatest := fun _ hx => absurd hx List.not_mem_nil

/-- The first elements of a descending order. -/
theorem take [Preorder β] {sorted : List α} (hnodup : sorted.Nodup)
    (hsorted : sorted.Pairwise fun x y => score y ≤ score x) (n : ℕ) :
    Selects n score sorted (sorted.take n) where
  nodup := hnodup.sublist (List.take_sublist n sorted)
  subset := List.take_subset n sorted
  length := List.length_take
  greatest := by
    intro x hx y hy hnot
    rw [← List.take_append_drop n sorted] at hy hsorted
    rcases List.mem_append.mp hy with hy | hy
    · exact absurd hy hnot
    · exact (List.pairwise_append.mp hsorted).2.2 x hx y hy

/-- Fewer elements than were asked for are all selected. -/
theorem eq_all [LE β] (h : Selects n score all top) (hfew : all.length ≤ n) :
    ∀ x, x ∈ top ↔ x ∈ all := by
  have hlength : all.length ≤ top.length := by
    have hsize := h.length
    omega
  have hsub := (List.subperm_of_subset h.nodup h.subset).perm_of_length_le hlength
  exact fun x => hsub.mem_iff

/-- What was kept and a new element are enough to select from. -/
theorem extend [Preorder β] {a : α} {kept selected : List α} (h : Selects n score all top)
    (hnew : a ∉ all) (hkept : kept.Nodup) (hsub : kept ⊆ all ++ [a]) (htop : top ⊆ kept)
    (ha : a ∈ kept) (hselects : Selects n score kept selected) :
    Selects n score (all ++ [a]) selected := by
  have hsize : kept.length ≤ all.length + 1 := by
    have hle := (List.subperm_of_subset hkept hsub).length_le
    rwa [List.length_append, List.length_singleton] at hle
  have hgrown : top.length + 1 ≤ kept.length := by
    have hnodup : (a :: top).Nodup :=
      List.nodup_cons.mpr ⟨fun hmem => hnew (h.subset hmem), h.nodup⟩
    exact (List.subperm_of_subset hnodup (List.cons_subset.mpr ⟨ha, htop⟩)).length_le
  have hlength := h.length
  constructor
  · exact hselects.nodup
  · exact fun x hx => hsub (hselects.subset hx)
  · rw [hselects.length, List.length_append, List.length_singleton]
    omega
  · intro x hx y hy hnot
    by_cases hy' : y ∈ kept
    · exact hselects.greatest x hx y hy' hnot
    · -- An element that was forgotten is no greater than those selected before it.
      have hyall : y ∈ all := by
        rcases List.mem_append.mp hy with hy | hy
        · exact hy
        · exact absurd (List.mem_singleton.mp hy ▸ ha) hy'
      have hytop : y ∉ top := fun hmem => hy' (htop hmem)
      have hfull : top.length = n := by
        have hmany : ¬ all.length ≤ n := fun hfew => hytop ((h.eq_all hfew y).mpr hyall)
        omega
      by_cases hsame : top ⊆ selected
      · have hle : selected.length ≤ top.length := by
          rw [hselects.length]
          omega
        have hperm := (List.subperm_of_subset h.nodup hsame).perm_of_length_le hle
        exact h.greatest x (hperm.symm.subset hx) y hyall hytop
      · simp only [List.subset_def, not_forall] at hsame
        obtain ⟨t, ht, htnot⟩ := hsame
        exact (h.greatest t ht y hyall hytop).trans (hselects.greatest x hx t (htop ht) htnot)

end Selects

end XmrigProxy
