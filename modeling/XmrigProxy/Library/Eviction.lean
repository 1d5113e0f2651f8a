import Mathlib.Algebra.GroupWithZero.Nat
import Mathlib.Data.List.Basic
import Mathlib.Tactic.Common

/-!
# Logs that forget their oldest entries

A log has a budget, and drops its oldest entries until the others are within it. What it holds is
then the longest end of everything it was ever given that the budget allows, although it has long
forgotten the beginning.
-/

namespace XmrigProxy.Eviction

variable {α : Type*} {fits : List α → Bool} {xs ys : List α}

/-- Drops the oldest entries until the others fit. -/
def trim (fits : List α → Bool) : List α → List α
  | [] => []
  | x :: xs => if fits (x :: xs) then x :: xs else trim fits xs

theorem trim_suffix (fits : List α → Bool) (xs : List α) : trim fits xs <:+ xs := by
  induction xs with
  | nil => exact List.suffix_rfl
  | cons x xs ih =>
      rw [trim]
      split
      · exact List.suffix_rfl
      · exact ih.trans (List.suffix_cons x xs)

theorem fits_trim (hnil : fits [] = true) (xs : List α) : fits (trim fits xs) = true := by
  induction xs with
  | nil => exact hnil
  | cons x xs ih =>
      rw [trim]
      split
      · assumption
      · exact ih

/-- No longer end fits. -/
theorem trim_longest (hsuffix : ys <:+ xs) (hfits : fits ys = true) : ys <:+ trim fits xs := by
  induction xs with
  | nil => exact hsuffix
  | cons x xs ih =>
      rw [trim]
      split
      · exact hsuffix
      · rename_i hrest
        rcases List.suffix_cons_iff.mp hsuffix with rfl | hsuffix
        · exact absurd hfits hrest
        · exact ih hsuffix

/-- A log may be trimmed before it grows. -/
theorem trim_trim_append (hfits : ∀ xs ys : List α, fits (xs ++ ys) = true → fits xs = true)
    (xs ys : List α) : trim fits (trim fits xs ++ ys) = trim fits (xs ++ ys) := by
  induction xs with
  | nil => rfl
  | cons x xs ih =>
      rw [trim]
      split
      · rfl
      · rename_i hrest
        have hlong : ¬ fits (x :: (xs ++ ys)) = true := fun h => hrest (hfits (x :: xs) ys h)
        rw [ih, List.cons_append, trim, if_neg hlong]

/-- A bounded number of entries, whose sizes are bounded together. -/
def withinBudget (size : α → ℕ) (count bytes : ℕ) (xs : List α) : Bool :=
  xs.length ≤ count ∧ (xs.map size).sum ≤ bytes

variable {size : α → ℕ} {count bytes : ℕ}

theorem withinBudget_iff : withinBudget size count bytes xs = true ↔
    xs.length ≤ count ∧ (xs.map size).sum ≤ bytes := by
  simp [withinBudget]

theorem withinBudget_nil : withinBudget size count bytes [] = true := by
  simp [withinBudget]

theorem withinBudget_of_append (xs ys : List α)
    (h : withinBudget size count bytes (xs ++ ys) = true) :
    withinBudget size count bytes xs = true := by
  obtain ⟨hcount, hbytes⟩ := withinBudget_iff.mp h
  rw [List.length_append] at hcount
  rw [List.map_append, List.sum_append] at hbytes
  exact withinBudget_iff.mpr ⟨by omega, by omega⟩

end XmrigProxy.Eviction
