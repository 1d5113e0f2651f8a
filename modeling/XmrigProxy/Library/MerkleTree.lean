import Mathlib.Data.Nat.Log
import Mathlib.Data.List.Nodup
import Mathlib.Tactic.Ring

/-!
# Merkle trees

Binary trees over a hash function for pairs, full trees over the nodes of a level, and
the tree that CryptoNote builds over a list of any length: the leaves that are too many
for the next smaller power of two are paired first. A leaf is proved by the siblings on
its way up, and with another leaf in its place the same siblings give the root of the
changed tree.
-/

namespace XmrigProxy.Merkle

inductive Tree (α : Type*) where
  | leaf (a : α)
  | node (l r : Tree α)

variable {α : Type*} (hash : α → α → α)

def Tree.root : Tree α → α
  | .leaf a => a
  | .node l r => hash (root l) (root r)

/-- The hashes of all nodes, the leaves included. -/
def Tree.values : Tree α → List α
  | .leaf a => [a]
  | .node l r => hash (l.root hash) (r.root hash) :: (values l ++ values r)

theorem Tree.root_mem_values (t : Tree α) : t.root hash ∈ t.values hash := by
  cases t with
  | leaf a => exact List.mem_singleton_self a
  | node l r => exact List.mem_cons_self

/-- The full tree over `2 ^ d` nodes of a level, from the node at `off` on. -/
def full : ℕ → (ℕ → Tree α) → ℕ → Tree α
  | 0, f, off => f off
  | d + 1, f, off => .node (full d f off) (full d f (off + 2 ^ d))

/-- The level above. -/
def pair (f : ℕ → Tree α) (j : ℕ) : Tree α := .node (f (2 * j)) (f (2 * j + 1))

/-- A full tree may also be built from the bottom, one level after another. -/
theorem full_succ (d : ℕ) (f : ℕ → Tree α) (off : ℕ) :
    full (d + 1) f (2 * off) = full d (pair f) off := by
  induction d generalizing off with
  | zero => rfl
  | succ d ih =>
      have hhalf : 2 * off + 2 ^ (d + 1) = 2 * (off + 2 ^ d) := by ring
      calc full (d + 2) f (2 * off)
          = .node (full (d + 1) f (2 * off)) (full (d + 1) f (2 * off + 2 ^ (d + 1))) := rfl
        _ = .node (full d (pair f) off) (full d (pair f) (off + 2 ^ d)) := by
          rw [ih, hhalf, ih]

theorem full_congr {d : ℕ} {f g : ℕ → Tree α} {off : ℕ}
    (h : ∀ j < 2 ^ d, f (off + j) = g (off + j)) : full d f off = full d g off := by
  induction d generalizing off with
  | zero => exact h 0 (by simp)
  | succ d ih =>
      have hpow : 2 ^ (d + 1) = 2 ^ d + 2 ^ d := by ring
      have hleft : full d f off = full d g off := ih fun j hj => h j (by omega)
      have hright : full d f (off + 2 ^ d) = full d g (off + 2 ^ d) := by
        refine ih fun j hj => ?_
        rw [Nat.add_assoc]
        exact h (2 ^ d + j) (by omega)
      unfold full
      rw [hleft, hright]

section Distinct

variable {hash} {d : ℕ} {f : ℕ → Tree α}

/-- In a tree of distinct hashes the nodes of a level are such trees. -/
theorem nodup_of_full {off : ℕ} (h : ((full d f off).values hash).Nodup) {j : ℕ} (hj : j < 2 ^ d) :
    ((f (off + j)).values hash).Nodup := by
  induction d generalizing off j with
  | zero =>
      obtain rfl : j = 0 := by simpa using hj
      exact h
  | succ d ih =>
      have hpow : 2 ^ (d + 1) = 2 ^ d + 2 ^ d := by ring
      obtain ⟨hleft, hright, -⟩ := List.nodup_append.mp (List.nodup_cons.mp h).2
      by_cases hlt : j < 2 ^ d
      · exact ih hleft hlt
      · have := ih hright (j := j - 2 ^ d) (by omega)
        rwa [show off + 2 ^ d + (j - 2 ^ d) = off + j by omega] at this

theorem values_subset_full (off : ℕ) {j : ℕ} (hj : j < 2 ^ d) :
    (f (off + j)).values hash ⊆ (full d f off).values hash := by
  induction d generalizing off j with
  | zero =>
      obtain rfl : j = 0 := by simpa using hj
      exact List.Subset.refl _
  | succ d ih =>
      have hpow : 2 ^ (d + 1) = 2 ^ d + 2 ^ d := by ring
      intro x hx
      refine List.mem_cons_of_mem _ (List.mem_append.mpr ?_)
      by_cases hlt : j < 2 ^ d
      · exact Or.inl (ih off hlt hx)
      · refine Or.inr (ih (off + 2 ^ d) (j := j - 2 ^ d) (by omega) ?_)
        rwa [show off + 2 ^ d + (j - 2 ^ d) = off + j by omega]

/-- Different nodes of a level have no hash in common. -/
theorem disjoint_of_full (off : ℕ) (h : ((full d f off).values hash).Nodup)
    {i j : ℕ} (hi : i < 2 ^ d) (hj : j < 2 ^ d) (hne : i ≠ j) {x : α}
    (hx : x ∈ (f (off + i)).values hash) :
    x ∉ (f (off + j)).values hash := by
  induction d generalizing off i j with
  | zero =>
      have hi : i = 0 := by simpa using hi
      have hj : j = 0 := by simpa using hj
      exact absurd (hi.trans hj.symm) hne
  | succ d ih =>
      have hpow : 2 ^ (d + 1) = 2 ^ d + 2 ^ d := by ring
      obtain ⟨hleft, hright, hdisjoint⟩ := List.nodup_append.mp (List.nodup_cons.mp h).2
      have hshift : ∀ {n : ℕ}, ¬ n < 2 ^ d → off + 2 ^ d + (n - 2 ^ d) = off + n := by omega
      by_cases hil : i < 2 ^ d
      · by_cases hjl : j < 2 ^ d
        · exact ih off hleft hil hjl hne hx
        · intro hx'
          rw [← hshift hjl] at hx'
          exact hdisjoint x (values_subset_full _ hil hx) x
            (values_subset_full _ (by omega) hx') rfl
      · by_cases hjl : j < 2 ^ d
        · intro hx'
          rw [← hshift hil] at hx
          exact hdisjoint x (values_subset_full _ hjl hx') x
            (values_subset_full _ (by omega) hx) rfl
        · rw [← hshift hil] at hx
          rw [← hshift hjl]
          exact ih _ hright (by omega) (by omega) (by omega) hx

/-- A node of a level is known by its hash. -/
theorem root_injective (h : ((full d f 0).values hash).Nodup) {i j : ℕ} (hi : i < 2 ^ d)
    (hj : j < 2 ^ d) (heq : (f i).root hash = (f j).root hash) : i = j := by
  by_contra hne
  refine disjoint_of_full 0 h hi hj hne (x := (f i).root hash) ?_ ?_
  · rw [Nat.zero_add]
    exact Tree.root_mem_values hash (f i)
  · rw [Nat.zero_add, heq]
    exact Tree.root_mem_values hash (f j)

/-- No node of a level has the hash of a node of the level above. -/
theorem root_ne_pair (h : ((full (d + 1) f 0).values hash).Nodup) {i j : ℕ} (hi : i < 2 ^ (d + 1))
    (hj : j < 2 ^ d) : (f i).root hash ≠ (pair f j).root hash := by
  have hpow : 2 ^ (d + 1) = 2 * 2 ^ d := by ring
  have h : ((full d (pair f) 0).values hash).Nodup := by
    rw [← full_succ]
    exact h
  have hmem : (f i).root hash ∈ (f (2 * (i / 2))).values hash ++
      (f (2 * (i / 2) + 1)).values hash := by
    rcases Nat.mod_two_eq_zero_or_one i with hmod | hmod
    · have hi2 : 2 * (i / 2) = i := by omega
      rw [hi2]
      exact List.mem_append_left _ (Tree.root_mem_values hash (f i))
    · have hi2 : 2 * (i / 2) + 1 = i := by omega
      rw [hi2]
      exact List.mem_append_right _ (Tree.root_mem_values hash (f i))
  intro heq
  by_cases hparent : i / 2 = j
  · have hnodup := nodup_of_full h hj
    rw [Nat.zero_add] at hnodup
    rw [hparent] at hmem
    rw [heq] at hmem
    exact (List.nodup_cons.mp hnodup).1 hmem
  · refine disjoint_of_full 0 h (i := i / 2) (by omega) hj hparent ?_ ?_
      (x := (f i).root hash)
    · rw [Nat.zero_add]
      exact List.mem_cons_of_mem _ hmem
    · rw [Nat.zero_add, heq]
      exact Tree.root_mem_values hash (pair f j)

end Distinct

section Proofs

/-- The hash that a leaf or node leads to with its siblings, the lowest one first. A sibling
comes with whether it is the left one. -/
def climb (x : α) (siblings : List (Bool × α)) : α :=
  siblings.foldl (fun x s => if s.1 then hash s.2 x else hash x s.2) x

/-- The sibling of a node of a level. -/
def sibling (f : ℕ → Tree α) (t : ℕ) : Tree α := if t % 2 = 1 then f (t - 1) else f (t + 1)

/-- The siblings from a node of a level up to the root of the full tree. -/
def siblings : ℕ → (ℕ → Tree α) → ℕ → List (Bool × α)
  | 0, _, _ => []
  | d + 1, f, t =>
      (decide (t % 2 = 1), (sibling f t).root hash) :: siblings d (pair f) (t / 2)

variable {hash}

theorem siblings_succ (d : ℕ) (f : ℕ → Tree α) (t : ℕ) :
    siblings hash (d + 1) f t =
      (decide (t % 2 = 1), (sibling f t).root hash) :: siblings hash d (pair f) (t / 2) := rfl

theorem length_siblings (d : ℕ) (f : ℕ → Tree α) (t : ℕ) : (siblings hash d f t).length = d := by
  induction d generalizing f t with
  | zero => rfl
  | succ d ih => simp [siblings, ih]

theorem pair_update (f : ℕ → Tree α) (t : ℕ) (s : Tree α) :
    pair (Function.update f t s) = Function.update (pair f) (t / 2)
      (if t % 2 = 1 then .node (sibling f t) s else .node s (sibling f t)) := by
  funext j
  unfold pair sibling
  by_cases hj : j = t / 2
  · subst hj
    rw [Function.update_self]
    rcases Nat.mod_two_eq_zero_or_one t with hmod | hmod
    · have hleft : 2 * (t / 2) = t := by omega
      rw [hleft, Function.update_self, Function.update_of_ne (by omega), if_neg (by omega),
        if_neg (by omega)]
    · have hright : 2 * (t / 2) + 1 = t := by omega
      have hleft : 2 * (t / 2) = t - 1 := by omega
      rw [hright, Function.update_self, hleft, Function.update_of_ne (by omega), if_pos hmod,
        if_pos hmod]
  · rw [Function.update_of_ne hj, Function.update_of_ne (by omega),
      Function.update_of_ne (by omega)]

/-- The siblings of a node give the root with any tree in its place. -/
theorem root_full_update {d : ℕ} {f : ℕ → Tree α} {t : ℕ} (ht : t < 2 ^ d) (s : Tree α) :
    (full d (Function.update f t s) 0).root hash =
      climb hash (s.root hash) (siblings hash d f t) := by
  induction d generalizing f t s with
  | zero =>
      obtain rfl : t = 0 := by simpa using ht
      simp [full, climb, siblings]
  | succ d ih =>
      have hup : t / 2 < 2 ^ d := by
        have hpow : 2 ^ (d + 1) = 2 * 2 ^ d := by ring
        omega
      rw [show (0 : ℕ) = 2 * 0 from rfl, full_succ, pair_update, ih hup]
      rw [siblings_succ]
      unfold climb
      rw [List.foldl_cons]
      by_cases hmod : t % 2 = 1
      · simp [hmod, Tree.root]
      · simp [hmod, Tree.root]

end Proofs

section CryptoNote

variable [Inhabited α]

/-- The number of leaves that stay single at the bottom when `n` leaves are brought to a level
of `2 ^ d` nodes. -/
def singles (n d : ℕ) : ℕ := 2 * 2 ^ d - n

/-- The lowest full level over a list of leaves: the first ones by themselves, the others in
pairs. -/
def bottom (l : List α) (d : ℕ) (j : ℕ) : Tree α :=
  let k := singles l.length d
  if j < k then .leaf l[j]! else .node (.leaf l[2 * j - k]!) (.leaf l[2 * j - k + 1]!)

/-- The CryptoNote tree over a list: its lowest full level has as many nodes as the largest power
of two below the length. -/
def cryptoNote (l : List α) : Tree α :=
  let d := Nat.clog 2 l.length - 1
  full d (bottom l d) 0

def treeHash (l : List α) : α := (cryptoNote l).root hash

end CryptoNote

end XmrigProxy.Merkle
