import Mathlib.Algebra.BigOperators.Group.List.Basic
import Mathlib.Data.List.Nodup
import Mathlib.Data.Nat.Notation
import Mathlib.Tactic.Common

/-!
# Ledgers

Accounts that are opened one after another, each with its own identity, and entries that are
posted to them. In a balanced ledger every account holds the sum of its entries, and the accounts
together hold the total, whatever the entries were and in whatever order they came.
-/

namespace XmrigProxy

structure Ledger (ι ε M : Type*) where
  balances : List (ι × M)
  total : M
  entries : List (ι × ε)

namespace Ledger

variable {ι ε M : Type*} [DecidableEq ι] [AddCommMonoid M]

def openAccount (i : ι) (l : Ledger ι ε M) : Ledger ι ε M :=
  { l with balances := l.balances ++ [(i, 0)] }

def post (amount : ε → M) (i : ι) (e : ε) (l : Ledger ι ε M) : Ledger ι ε M where
  balances := l.balances.map fun b => if b.1 = i then (b.1, b.2 + amount e) else b
  total := l.total + amount e
  entries := l.entries ++ [(i, e)]

/-- What was posted to an account. -/
def posted (amount : ε → M) (i : ι) (l : Ledger ι ε M) : M :=
  ((l.entries.filter fun x => x.1 = i).map fun x => amount x.2).sum

structure Balanced (amount : ε → M) (l : Ledger ι ε M) : Prop where
  nodup : (l.balances.map Prod.fst).Nodup
  known : ∀ x ∈ l.entries, x.1 ∈ l.balances.map Prod.fst
  balance : ∀ b ∈ l.balances, b.2 = l.posted amount b.1
  sum : (l.balances.map Prod.snd).sum = l.total
  total : l.total = (l.entries.map fun x => amount x.2).sum

variable {amount : ε → M} {l : Ledger ι ε M} {i : ι} {e : ε}

theorem balanced_empty : Balanced amount (⟨[], 0, []⟩ : Ledger ι ε M) :=
  ⟨List.nodup_nil, fun _ hx => absurd hx List.not_mem_nil, fun _ hb => absurd hb List.not_mem_nil,
    rfl, rfl⟩

theorem posted_fresh (h : Balanced amount l) (hi : i ∉ l.balances.map Prod.fst) :
    l.posted amount i = 0 := by
  have hnone : l.entries.filter (fun x => x.1 = i) = [] := by
    refine List.filter_eq_nil_iff.mpr fun x hx => ?_
    have hknown := h.known x hx
    intro heq
    rw [of_decide_eq_true heq] at hknown
    exact hi hknown
  unfold posted
  rw [hnone]
  rfl

theorem balanced_openAccount (h : Balanced amount l) (hi : i ∉ l.balances.map Prod.fst) :
    Balanced amount (l.openAccount i) := by
  constructor
  · change ((l.balances ++ [(i, (0 : M))]).map Prod.fst).Nodup
    rw [List.map_append]
    refine List.nodup_append.mpr ⟨h.nodup, List.nodup_singleton i, ?_⟩
    intro a ha b hb heq
    have hb := List.mem_singleton.mp hb
    rw [heq, hb] at ha
    exact hi ha
  · intro x hx
    change x.1 ∈ (l.balances ++ [(i, (0 : M))]).map Prod.fst
    rw [List.map_append]
    exact List.mem_append_left _ (h.known x hx)
  · intro b hb
    rcases List.mem_append.mp hb with hb | hb
    · exact h.balance b hb
    · rw [List.mem_singleton.mp hb]
      exact (posted_fresh h hi).symm
  · change ((l.balances ++ [(i, (0 : M))]).map Prod.snd).sum = l.total
    rw [List.map_append, List.sum_append, h.sum]
    simp
  · exact h.total

theorem fst_post (l : Ledger ι ε M) :
    (l.post amount i e).balances.map Prod.fst = l.balances.map Prod.fst := by
  unfold post
  rw [List.map_map]
  refine List.map_congr_left fun b _ => ?_
  dsimp only [Function.comp]
  split <;> rfl

/-- An entry adds its amount to one balance of a list whose keys are distinct. -/
theorem sum_post_balances {balances : List (ι × M)} (hnodup : (balances.map Prod.fst).Nodup)
    (hi : i ∈ balances.map Prod.fst) (m : M) :
    ((balances.map fun b => if b.1 = i then (b.1, b.2 + m) else b).map Prod.snd).sum =
      (balances.map Prod.snd).sum + m := by
  induction balances with
  | nil => exact absurd hi List.not_mem_nil
  | cons b rest ih =>
      rw [List.map_cons] at hnodup hi
      obtain ⟨hb, hrest⟩ := List.nodup_cons.mp hnodup
      simp only [List.map_cons, List.sum_cons]
      by_cases hbi : b.1 = i
      · have hsame : (rest.map fun b => if b.1 = i then (b.1, b.2 + m) else b) = rest := by
          conv_rhs => rw [← List.map_id rest]
          refine List.map_congr_left fun c hc => ?_
          rw [if_neg]
          · rfl
          · intro hci
            apply hb
            rw [hbi, ← hci]
            exact List.mem_map_of_mem hc
        rw [hsame, if_pos hbi]
        exact add_right_comm _ _ _
      · have hi' : i ∈ rest.map Prod.fst := by
          rcases List.mem_cons.mp hi with heq | hmem
          · exact absurd heq.symm hbi
          · exact hmem
        rw [if_neg hbi, ih hrest hi', add_assoc]

theorem balanced_post (h : Balanced amount l) (hi : i ∈ l.balances.map Prod.fst) :
    Balanced amount (l.post amount i e) := by
  constructor
  · rw [fst_post]
    exact h.nodup
  · intro x hx
    rw [fst_post]
    rcases List.mem_append.mp hx with hx | hx
    · exact h.known x hx
    · rw [List.mem_singleton.mp hx]
      exact hi
  · intro b hb
    obtain ⟨c, hc, rfl⟩ := List.mem_map.mp hb
    have hbalance := h.balance c hc
    unfold posted post at *
    dsimp only
    rw [List.filter_append, List.map_append, List.sum_append]
    by_cases hci : c.1 = i
    · rw [if_pos hci]
      dsimp only
      rw [hbalance]
      simp [hci]
    · rw [if_neg hci, hbalance]
      have hic : ¬ i = c.1 := fun heq => hci heq.symm
      simp [hic]
  · change (List.map Prod.snd (l.balances.map _)).sum = l.total + amount e
    rw [sum_post_balances h.nodup hi, h.sum]
  · change l.total + amount e = ((l.entries ++ [(i, e)]).map fun x => amount x.2).sum
    rw [List.map_append, List.sum_append, h.total]
    simp

end Ledger

end XmrigProxy
