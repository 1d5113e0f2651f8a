import Mathlib.Data.List.Basic
import Mathlib.Data.Nat.Notation
import Mathlib.Tactic.Common
import Mathlib.Tactic.Linarith

/-!
# Sliding windows over event times

A limiter keeps the times of the events it admitted in a queue and drops the expired ones from its
front whenever it looks. What it counts is the number of admitted events that are still live, as
long as time does not go back. A limiter that only admits while fewer than `limit` are live keeps
every window of the given span below the limit, wherever the window starts.
-/

namespace XmrigProxy

namespace SlidingWindow

variable (span : ℕ)

def prune (now : ℕ) (window : List ℕ) : List ℕ := window.dropWhile fun t => t + span ≤ now

def live (now : ℕ) (times : List ℕ) : List ℕ := times.filter fun t => now < t + span

/-- The events of one window, which starts at any time. -/
def during (start : ℕ) (times : List ℕ) : List ℕ :=
  times.filter fun t => start ≤ t ∧ t < start + span

/-- The queue `window` tells which of the `times`, the latest first, are live from now on. -/
structure Tracks (now : ℕ) (times window : List ℕ) : Prop where
  sorted : window.Pairwise (· ≤ ·)
  past : ∀ t ∈ window, t ≤ now
  agree : ∀ later, now ≤ later → (live span later window).reverse = live span later times

variable {span} {now later : ℕ} {times window : List ℕ}

theorem live_live (h : now ≤ later) :
    live span later (live span now times) = live span later times := by
  unfold live
  rw [List.filter_filter]
  apply List.filter_congr
  intro t _
  rw [Bool.and_eq_left_iff_imp]
  simp only [decide_eq_true_eq]
  omega

/-- In a sorted queue the expired events stand in front. -/
theorem prune_eq_live (h : window.Pairwise (· ≤ ·)) :
    prune span now window = live span now window := by
  induction window with
  | nil => rfl
  | cons t rest ih =>
      obtain ⟨hfirst, hrest⟩ := List.pairwise_cons.mp h
      unfold prune live
      by_cases hexpired : t + span ≤ now
      · rw [List.dropWhile_cons_of_pos (by simpa using hexpired),
          List.filter_cons_of_neg (by simpa using hexpired)]
        exact ih hrest
      · have hall : ∀ u ∈ t :: rest, now < u + span := by
          intro u hu
          rcases List.mem_cons.mp hu with rfl | hu
          · omega
          · have := hfirst u hu
            omega
        rw [List.dropWhile_cons_of_neg (by simpa using hexpired)]
        exact (List.filter_eq_self.mpr fun u hu => by simpa using hall u hu).symm

/-- What was dropped once would also be dropped later. -/
theorem prune_prune (h : now ≤ later) (window : List ℕ) :
    prune span later (prune span now window) = prune span later window := by
  induction window with
  | nil => rfl
  | cons t rest ih =>
      by_cases hexpired : t + span ≤ now
      · have hlater : t + span ≤ later := Nat.le_trans hexpired h
        have hnow : prune span now (t :: rest) = prune span now rest :=
          List.dropWhile_cons_of_pos (by simpa using hexpired)
        rw [hnow, ih]
        exact (List.dropWhile_cons_of_pos (by simpa using hlater)).symm
      · have hnow : prune span now (t :: rest) = t :: rest :=
          List.dropWhile_cons_of_neg (by simpa using hexpired)
        rw [hnow]

namespace Tracks

theorem nil : Tracks span now [] [] where
  sorted := List.Pairwise.nil
  past := by
    intro t ht
    exact absurd ht List.not_mem_nil
  agree := fun _ _ => rfl

theorem wait (h : Tracks span now times window) (hlater : now ≤ later) :
    Tracks span later times window where
  sorted := h.sorted
  past := fun t ht => Nat.le_trans (h.past t ht) hlater
  agree := fun after hafter => h.agree after (Nat.le_trans hlater hafter)

theorem prune (h : Tracks span now times window) :
    Tracks span now times (prune span now window) := by
  rw [prune_eq_live h.sorted]
  constructor
  · exact h.sorted.filter _
  · intro t ht
    exact h.past t (List.mem_of_mem_filter ht)
  · intro later hlater
    rw [live_live hlater, h.agree later hlater]

theorem push (h : Tracks span now times window) :
    Tracks span now (now :: times) (window ++ [now]) where
  sorted := by
    rw [List.pairwise_append]
    refine ⟨h.sorted, List.pairwise_singleton _ _, ?_⟩
    intro t ht u hu
    rw [List.mem_singleton.mp hu]
    exact h.past t ht
  past := by
    intro t ht
    rcases List.mem_append.mp ht with ht | ht
    · exact h.past t ht
    · exact le_of_eq (List.mem_singleton.mp ht)
  agree := by
    intro later hlater
    have hagree := h.agree later hlater
    unfold live at hagree ⊢
    rw [List.filter_append, List.reverse_append, hagree, List.filter_cons, List.filter_cons,
      List.filter_nil]
    split <;> rfl

theorem length (h : Tracks span now times window) :
    (SlidingWindow.prune span now window).length = (live span now times).length := by
  rw [prune_eq_live h.sorted, ← h.agree now le_rfl, List.length_reverse]

end Tracks

/-- When an event comes, all earlier ones that share a window with it are live. -/
theorem during_length_le (t start : ℕ) (hwindow : start ≤ t ∧ t < start + span) (earlier : List ℕ) :
    (during span start earlier).length ≤ (live span t earlier).length := by
  unfold during live
  rw [← List.countP_eq_length_filter, ← List.countP_eq_length_filter]
  apply List.countP_mono_left
  intro u _ hu
  simp only [decide_eq_true_eq] at hu ⊢
  omega

/-- An event that came while fewer than `limit` were live overfills no window. -/
theorem during_cons {limit t start : ℕ} {earlier : List ℕ}
    (hbefore : (during span start earlier).length ≤ limit)
    (hlive : (live span t earlier).length < limit) :
    (during span start (t :: earlier)).length ≤ limit := by
  by_cases hwindow : start ≤ t ∧ t < start + span
  · have hle := during_length_le t start hwindow earlier
    have hcount : during span start (t :: earlier) = t :: during span start earlier :=
      List.filter_cons_of_pos (by simpa using hwindow)
    rw [hcount, List.length_cons]
    omega
  · have hcount : during span start (t :: earlier) = during span start earlier :=
      List.filter_cons_of_neg (by simpa using hwindow)
    rw [hcount]
    exact hbefore

end SlidingWindow

end XmrigProxy
