import Mathlib.Data.List.DropRight
import Mathlib.Data.List.TakeWhile
import Mathlib.Data.Nat.Notation
import Mathlib.Tactic.Common

/-!
# Lists that forget their oldest elements

The newest element is kept for as long as nothing follows it; of the others, a bounded
number is kept, up to the first one that is no longer fresh. Freshness only wears off, so
it makes no difference how often such a list was trimmed before.
-/

namespace XmrigProxy.Retention

variable {α β : Type*}

/-- The newest element, and at most `cap` older ones that are fresh. -/
def recent (cap : ℕ) (fresh : α → Bool) : List α → List α
  | [] => []
  | newest :: older => newest :: (older.take cap).takeWhile fresh

/-- In a list whose expired elements are all at its end, dropping those is taking the others. -/
theorem rdropWhile_eq_takeWhile {p : α → Bool} {l : List α}
    (h : l.Pairwise fun a b => p a = true → p b = true) :
    l.rdropWhile p = l.takeWhile fun a => !p a := by
  induction l using List.reverseRecOn with
  | nil => rfl
  | append_singleton rest last ih =>
      obtain ⟨hrest, -, hlast⟩ := List.pairwise_append.mp h
      rw [List.takeWhile_append]
      by_cases hp : p last = true
      · rw [List.rdropWhile_concat_pos _ _ _ hp, ih hrest]
        split
        · next hall => simpa [hp] using List.Sublist.eq_of_length (List.takeWhile_sublist _) hall
        · rfl
      · rw [List.rdropWhile_concat_neg _ _ _ hp]
        have hall : rest.takeWhile (fun a => !p a) = rest := by
          refine List.takeWhile_eq_self_iff.mpr fun a ha => ?_
          have hne : ¬ p a = true := fun hpa => hp (hlast a ha last List.mem_cons_self hpa)
          simpa using hne
        rw [hall, if_pos rfl]
        simp [hp]

theorem mem_takeWhile {q : α → Bool} {l : List α} {x : α}
    (h : l.Pairwise fun a b => q b = true → q a = true) :
    x ∈ l.takeWhile q ↔ x ∈ l ∧ q x = true := by
  induction l with
  | nil => simp
  | cons a rest ih =>
      obtain ⟨ha, hrest⟩ := List.pairwise_cons.mp h
      by_cases hq : q a = true
      · rw [List.takeWhile_cons_of_pos hq, List.mem_cons, List.mem_cons, ih hrest]
        constructor
        · rintro (rfl | ⟨hx, hqx⟩)
          · exact ⟨Or.inl rfl, hq⟩
          · exact ⟨Or.inr hx, hqx⟩
        · rintro ⟨rfl | hx, hqx⟩
          · exact Or.inl rfl
          · exact Or.inr ⟨hx, hqx⟩
      · rw [List.takeWhile_cons_of_neg hq]
        constructor
        · intro hx
          cases hx
        · rintro ⟨hx, hqx⟩
          rcases List.mem_cons.mp hx with rfl | hx
          · exact absurd hqx hq
          · exact absurd (ha x hx hqx) hq

variable {cap : ℕ} {fresh fresh' : α → Bool}

theorem takeWhile_takeWhile_of_imp (h : ∀ a, fresh' a = true → fresh a = true) (l : List α) :
    (l.takeWhile fresh).takeWhile fresh' = l.takeWhile fresh' := by
  rw [List.takeWhile_takeWhile]
  congr 1
  funext a
  by_cases ha : fresh' a = true
  · simp [ha, h a ha]
  · simp [ha]

theorem recent_sublist (cap : ℕ) (fresh : α → Bool) (l : List α) :
    (recent cap fresh l).Sublist l := by
  cases l with
  | nil => exact List.Sublist.refl _
  | cons newest older =>
      exact ((List.takeWhile_sublist fresh).trans (List.take_sublist cap older)).cons_cons newest

theorem recent_recent (h : ∀ a, fresh' a = true → fresh a = true) (l : List α) :
    recent cap fresh' (recent cap fresh l) = recent cap fresh' l := by
  cases l with
  | nil => rfl
  | cons newest older =>
      unfold recent
      dsimp only
      rw [List.take_takeWhile, List.take_take, min_self, takeWhile_takeWhile_of_imp h]

/-- A new element in front of a trimmed list is as good as in front of the whole one. -/
theorem recent_cons_recent (h : ∀ a, fresh' a = true → fresh a = true) (x : α) (l : List α) :
    recent (cap + 1) fresh' (x :: recent (cap + 1) fresh l) = recent (cap + 1) fresh' (x :: l) := by
  cases l with
  | nil => rfl
  | cons newest older =>
      unfold recent
      dsimp only
      rw [List.take_succ_cons, List.take_succ_cons, List.take_takeWhile, List.take_take,
        min_eq_left (Nat.le_succ cap)]
      by_cases hnew : fresh' newest = true
      · rw [List.takeWhile_cons_of_pos hnew, List.takeWhile_cons_of_pos hnew,
          takeWhile_takeWhile_of_imp h]
      · rw [List.takeWhile_cons_of_neg hnew, List.takeWhile_cons_of_neg hnew]

theorem map_recent (f : β → α) (l : List β) :
    (recent cap (fresh ∘ f) l).map f = recent cap fresh (l.map f) := by
  cases l with
  | nil => rfl
  | cons newest older =>
      unfold recent
      rw [List.map_cons, List.map_cons]
      dsimp only
      rw [← List.map_take, List.takeWhile_map]

theorem mem_recent_cons {newest x : α} {older : List α}
    (h : older.Pairwise fun a b => fresh b = true → fresh a = true) :
    x ∈ recent cap fresh (newest :: older) ↔
      x = newest ∨ (x ∈ older.take cap ∧ fresh x = true) := by
  unfold recent
  rw [List.mem_cons, mem_takeWhile (h.sublist (List.take_sublist cap older))]

end XmrigProxy.Retention
