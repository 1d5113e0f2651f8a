import XmrigProxy.Library.MerkleTree
import Mathlib.Tactic.IntervalCases

/-! The Merkle root of a block template. The loops overwrite one buffer level by level, and keep
the branch of the coinbase by comparing every hash with the one that leads to it. -/
namespace XmrigProxy

abbrev Buffer := List UInt8

structure Hash where
  bytes : Buffer
  size : bytes.length = 32
  deriving DecidableEq

namespace Hash

def zero : Hash := ⟨List.replicate 32 0, rfl⟩

instance : Inhabited Hash := ⟨zero⟩

theorem bytes_injective {a b : Hash} (h : a.bytes = b.bytes) : a = b := by
  cases a
  cases b
  congr

end Hash

namespace BlockTemplate

/-- The base RCT of a miner transaction is a single zero byte. -/
def knownSecondHash : Buffer :=
  [188, 54, 120, 158, 122, 30, 40, 20, 54, 70, 66, 41, 130, 143, 129, 125, 102, 18, 247, 180, 119,
    214, 101, 145, 255, 150, 169, 224, 100, 188, 201, 138]

/-- What the loops of the root computation share: the branch and the path so far, the hash whose
sibling is looked for, and the buffer. -/
structure MerkleState where
  branch : List Hash := []
  path : ℕ := 0
  h2 : Hash
  ints : List Hash
  deriving DecidableEq

structure MerkleRoot where
  rootHash : Hash
  branch : List Hash := []
  path : ℕ := 0
  deriving DecidableEq

variable (keccak : Buffer → Hash)

def hashPair (a b : Hash) : Hash := keccak (a.bytes ++ b.bytes)

def calculateMinerTxHash (prefixBytes : Buffer) : Hash :=
  keccak ((keccak prefixBytes).bytes ++ knownSecondHash ++ List.replicate 32 0)

/-- One turn of the loop over the branch, of which `depth` hashes are left. -/
def rootStep (path depth : ℕ) (rootHash sibling : Hash) : Hash :=
  if (path >>> (depth - 1)) &&& 1 = 1 then hashPair keccak sibling rootHash
  else hashPair keccak rootHash sibling

def rootLoop (path : ℕ) : List Hash → Hash → Hash
  | [], rootHash => rootHash
  | sibling :: rest, rootHash =>
      rootLoop path rest (rootStep keccak path (rest.length + 1) rootHash sibling)

def calculateRootHash (prefixBytes : Buffer) (branch : List Hash) (path : ℕ) : Hash :=
  rootLoop keccak path branch (calculateMinerTxHash keccak prefixBytes)

/-- The largest power of two up to `count`, from `cnt` on. -/
def shrinkLoop (count : ℕ) : ℕ → ℕ → ℕ
  | 0, cnt => cnt / 2
  | fuel + 1, cnt => if cnt ≤ count then shrinkLoop count fuel (cnt * 2) else cnt / 2

/-- A pair of the leaves that are too many: the `i`th and the next become the `j`th node. -/
def leafStep (h : List Hash) (i j : ℕ) (s : MerkleState) : MerkleState :=
  let tmp := hashPair keccak h[i]! h[i + 1]!
  let s := { s with ints := s.ints.set j tmp }
  if h[i]! = s.h2 then
    { s with
      branch := s.branch ++ [h[i + 1]!]
      h2 := tmp }
  else if h[i + 1]! = s.h2 then
    { s with
      branch := s.branch ++ [h[i]!]
      h2 := tmp
      path := 1 }
  else s

def leafLoop (h : List Hash) : ℕ → ℕ → ℕ → MerkleState → MerkleState
  | 0, _, _, s => s
  | left + 1, i, j, s => leafLoop h left (i + 2) (j + 1) (leafStep keccak h i j s)

/-- A pair of a level becomes the `j`th node of the one above, in place. -/
def levelStep (j : ℕ) (s : MerkleState) : MerkleState :=
  let a := s.ints[2 * j]!
  let b := s.ints[2 * j + 1]!
  let tmp := hashPair keccak a b
  let s :=
    if a = s.h2 then
      { s with
        branch := s.branch ++ [b]
        h2 := tmp
        path := s.path * 2 % 2 ^ 32 }
    else if b = s.h2 then
      { s with
        branch := s.branch ++ [a]
        h2 := tmp
        path := s.path * 2 % 2 ^ 32 + 1 }
    else s
  { s with ints := s.ints.set j tmp }

def levelLoop : ℕ → ℕ → MerkleState → MerkleState
  | 0, _, s => s
  | left + 1, j, s => levelLoop left (j + 1) (levelStep keccak j s)

def treeLoop : ℕ → ℕ → MerkleState → MerkleState
  | 0, _, s => s
  | fuel + 1, cnt, s =>
      if 2 ≤ cnt then treeLoop fuel (cnt / 2) (levelLoop keccak (cnt / 2) 0 s) else s

def calculateMerkleTreeHash (h : List Hash) (index : ℕ) : MerkleRoot :=
  let count := h.length
  if count = 1 then { rootHash := h[0]! }
  else if count = 2 then
    { rootHash := hashPair keccak h[0]! h[1]!
      branch := [h[index ^^^ 1]!]
      path := index }
  else
    let cnt := shrinkLoop count count 2
    let k := cnt * 2 - count
    let s : MerkleState :=
      { h2 := h[index]!
        ints := h.take k ++ List.replicate (cnt - k) Hash.zero }
    let s := leafLoop keccak h (cnt - k) k k s
    let s := treeLoop keccak cnt cnt s
    { rootHash := s.ints[0]!
      branch := s.branch
      path := s.path }

section Levels

open Merkle

variable {keccak} {g : ℕ → Merkle.Tree Hash} {m t left j : ℕ} {s : MerkleState}

theorem getElem!_of_getElem? {l : List Hash} {i : ℕ} {x : Hash} (h : l[i]? = some x) :
    l[i]! = x := by
  rw [List.getElem!_eq_getElem?_getD, h]
  rfl

theorem ints_levelStep (j : ℕ) (s : MerkleState) :
    (levelStep keccak j s).ints =
      s.ints.set j (hashPair keccak s.ints[2 * j]! s.ints[2 * j + 1]!) := by
  unfold levelStep
  dsimp only
  split
  · rfl
  · split <;> rfl

/-- What is still to be read of a level lies behind what has been overwritten. -/
theorem ints_levelLoop (hints : ∀ x, j ≤ x → x < 2 * (j + left) →
      s.ints[x]? = some ((g x).root (hashPair keccak)))
    (hdone : ∀ x < j, s.ints[x]? = some ((pair g x).root (hashPair keccak))) :
    ∀ x < j + left, (levelLoop keccak left j s).ints[x]? =
      some ((pair g x).root (hashPair keccak)) := by
  induction left generalizing j s with
  | zero => exact hdone
  | succ left ih =>
      have ha := getElem!_of_getElem? (hints (2 * j) (by omega) (by omega))
      have hb := getElem!_of_getElem? (hints (2 * j + 1) (by omega) (by omega))
      have hj := hints j (le_refl j) (by omega)
      have hlt : j < s.ints.length := by
        by_contra hge
        rw [List.getElem?_eq_none (by omega)] at hj
        cases hj
      rw [show j + (left + 1) = j + 1 + left by omega]
      refine ih (fun x hx hlt' => ?_) fun x hx => ?_
      · rw [ints_levelStep, List.getElem?_set_ne (by omega)]
        exact hints x (by omega) (by omega)
      · rw [ints_levelStep]
        by_cases hxj : x = j
        · subst hxj
          rw [List.getElem?_set_self hlt, ha, hb]
          rfl
        · rw [List.getElem?_set_ne (by omega)]
          exact hdone x (by omega)

/-- The turn that finds the tracked hash turns to its parent; any other turn keeps it. -/
theorem levelStep_cases (keccak : Buffer → Hash) {a b : Hash} (ha : s.ints[2 * j]! = a)
    (hb : s.ints[2 * j + 1]! = b) :
    (a = s.h2 ∧ (levelStep keccak j s).h2 = hashPair keccak a b ∧
      (levelStep keccak j s).branch = s.branch ++ [b] ∧
      (levelStep keccak j s).path = s.path * 2 % 2 ^ 32) ∨
    (a ≠ s.h2 ∧ b = s.h2 ∧ (levelStep keccak j s).h2 = hashPair keccak a b ∧
      (levelStep keccak j s).branch = s.branch ++ [a] ∧
      (levelStep keccak j s).path = s.path * 2 % 2 ^ 32 + 1) ∨
    (a ≠ s.h2 ∧ b ≠ s.h2 ∧ (levelStep keccak j s).h2 = s.h2 ∧
      (levelStep keccak j s).branch = s.branch ∧ (levelStep keccak j s).path = s.path) := by
  unfold levelStep
  rw [ha, hb]
  dsimp only
  split
  · next hleft => exact Or.inl ⟨hleft, rfl, rfl, rfl⟩
  · next hleft =>
    split
    · next hright => exact Or.inr (Or.inl ⟨hleft, hright, rfl, rfl, rfl⟩)
    · next hright => exact Or.inr (Or.inr ⟨hleft, hright, rfl, rfl, rfl⟩)

/-- Once the loop has passed the tracked pair, its parent is met no more. -/
theorem levelLoop_passed (hnodup : ((full (m + 1) g 0).values (hashPair keccak)).Nodup)
    (hj : j + left = 2 ^ m)
    (hints : ∀ x, j ≤ x → x < 2 ^ (m + 1) → s.ints[x]? = some ((g x).root (hashPair keccak)))
    (ht : t / 2 < 2 ^ m) (hh2 : s.h2 = (pair g (t / 2)).root (hashPair keccak)) :
    (levelLoop keccak left j s).h2 = s.h2 ∧ (levelLoop keccak left j s).branch = s.branch ∧
      (levelLoop keccak left j s).path = s.path := by
  induction left generalizing j s with
  | zero => exact ⟨rfl, rfl, rfl⟩
  | succ left ih =>
      have hpow : 2 ^ (m + 1) = 2 * 2 ^ m := by ring
      have ha := getElem!_of_getElem? (hints (2 * j) (by omega) (by omega))
      have hb := getElem!_of_getElem? (hints (2 * j + 1) (by omega) (by omega))
      rcases levelStep_cases keccak ha hb with
        ⟨heq, -⟩ | ⟨-, heq, -⟩ | ⟨-, -, hsame, hbranch, hpath⟩
      · exact absurd (heq.trans hh2) (root_ne_pair hnodup (by omega) ht)
      · exact absurd (heq.trans hh2) (root_ne_pair hnodup (by omega) ht)
      · have hnext := ih (j := j + 1) (s := levelStep keccak j s) (by omega) (fun x hx hlt => ?_)
          (hsame.trans hh2)
        · rw [hsame, hbranch, hpath] at hnext
          exact hnext
        · rw [ints_levelStep, List.getElem?_set_ne (by omega)]
          exact hints x (by omega) hlt

/-- A level takes the tracked hash to its parent, and records its sibling and its side. -/
theorem levelLoop_tracked (hnodup : ((full (m + 1) g 0).values (hashPair keccak)).Nodup)
    (hj : j + left = 2 ^ m)
    (hints : ∀ x, j ≤ x → x < 2 ^ (m + 1) → s.ints[x]? = some ((g x).root (hashPair keccak)))
    (ht : t < 2 ^ (m + 1)) (hjt : j ≤ t / 2) (hh2 : s.h2 = (g t).root (hashPair keccak)) :
    (levelLoop keccak left j s).h2 = (pair g (t / 2)).root (hashPair keccak) ∧
      (levelLoop keccak left j s).branch =
        s.branch ++ [(sibling g t).root (hashPair keccak)] ∧
      (levelLoop keccak left j s).path = s.path * 2 % 2 ^ 32 + t % 2 := by
  induction left generalizing j s with
  | zero =>
      have hpow : 2 ^ (m + 1) = 2 * 2 ^ m := by ring
      omega
  | succ left ih =>
      have hpow : 2 ^ (m + 1) = 2 * 2 ^ m := by ring
      have hup : t / 2 < 2 ^ m := by omega
      have hleft' : j + 1 + left = 2 ^ m := by omega
      have ha := getElem!_of_getElem? (hints (2 * j) (by omega) (by omega))
      have hb := getElem!_of_getElem? (hints (2 * j + 1) (by omega) (by omega))
      have hints' : ∀ x, j + 1 ≤ x → x < 2 ^ (m + 1) →
          (levelStep keccak j s).ints[x]? = some ((g x).root (hashPair keccak)) := by
        intro x hx hlt
        rw [ints_levelStep, List.getElem?_set_ne (by omega)]
        exact hints x (by omega) hlt
      have hloop : levelLoop keccak (left + 1) j s =
          levelLoop keccak left (j + 1) (levelStep keccak j s) := rfl
      rw [hloop]
      rcases levelStep_cases keccak ha hb with
        ⟨heq, hparent, hbranch, hpath⟩ | ⟨hne, heq, hparent, hbranch, hpath⟩ |
        ⟨hleft, hright, hsame, hbranch, hpath⟩
      · have hpos : 2 * j = t := root_injective hnodup (by omega) ht (heq.trans hh2)
        have hhalf : t / 2 = j := by omega
        have hside : sibling g t = g (2 * j + 1) := by
          unfold sibling
          rw [if_neg (by omega), ← hpos]
        obtain ⟨hh2', hbranch', hpath'⟩ :=
          levelLoop_passed hnodup hleft' hints' hup (by rw [hparent, hhalf]; rfl)
        rw [hh2', hbranch', hpath', hparent, hbranch, hpath, hside, hhalf]
        exact ⟨rfl, rfl, by omega⟩
      · have hpos : 2 * j + 1 = t := root_injective hnodup (by omega) ht (heq.trans hh2)
        have hhalf : t / 2 = j := by omega
        have hside : sibling g t = g (2 * j) := by
          unfold sibling
          rw [if_pos (by omega), ← hpos]
          rfl
        obtain ⟨hh2', hbranch', hpath'⟩ :=
          levelLoop_passed hnodup hleft' hints' hup (by rw [hparent, hhalf]; rfl)
        rw [hh2', hbranch', hpath', hparent, hbranch, hpath, hside, hhalf]
        exact ⟨rfl, rfl, by omega⟩
      · have hnot : j ≠ t / 2 := by
          intro hhalf
          rcases Nat.mod_two_eq_zero_or_one t with hmod | hmod
          · exact hleft (by rw [hh2, show 2 * j = t by omega])
          · exact hright (by rw [hh2, show 2 * j + 1 = t by omega])
        have hnext := ih (s := levelStep keccak j s) hleft' hints' (by omega) (hsame.trans hh2)
        rw [hbranch, hpath] at hnext
        exact hnext

/-- The path that the sides of the siblings make, the lowest one in the highest bit. -/
def pathOf (sides : List Bool) : ℕ := sides.foldl (fun path side => path * 2 + side.toNat) 0

theorem pathOf_snoc (sides : List Bool) (side : Bool) :
    pathOf (sides ++ [side]) = pathOf sides * 2 + side.toNat := by
  simp [pathOf]

theorem foldl_path (sides : List Bool) (path : ℕ) :
    sides.foldl (fun path side => path * 2 + side.toNat) path =
      path * 2 ^ sides.length + pathOf sides := by
  unfold pathOf
  induction sides generalizing path with
  | nil => simp
  | cons side sides ih =>
      rw [List.foldl_cons, List.foldl_cons, ih, ih (0 * 2 + side.toNat), List.length_cons,
        Nat.pow_succ]
      ring

theorem pathOf_cons (side : Bool) (sides : List Bool) :
    pathOf (side :: sides) = side.toNat * 2 ^ sides.length + pathOf sides := by
  calc pathOf (side :: sides)
    _ = sides.foldl (fun path side => path * 2 + side.toNat) (0 * 2 + side.toNat) := rfl
    _ = side.toNat * 2 ^ sides.length + pathOf sides := by
      rw [foldl_path, Nat.zero_mul, Nat.zero_add]

theorem pathOf_lt (sides : List Bool) : pathOf sides < 2 ^ sides.length := by
  induction sides with
  | nil => simp [pathOf]
  | cons side sides ih =>
      rw [pathOf_cons, List.length_cons, Nat.pow_succ]
      cases side with
      | false =>
          rw [Bool.toNat_false]
          omega
      | true =>
          rw [Bool.toNat_true]
          omega

/-- The siblings found so far, and the hash of the node that they lead to. -/
structure Found (x : Hash) (found : List (Bool × Hash)) (s : MerkleState) : Prop where
  h2 : s.h2 = x
  branch : s.branch = found.map Prod.snd
  path : s.path = pathOf (found.map Prod.fst) % 2 ^ 32

theorem treeLoop_succ {fuel cnt : ℕ} (h : 2 ≤ cnt) (s : MerkleState) :
    treeLoop keccak (fuel + 1) cnt s =
      treeLoop keccak fuel (cnt / 2) (levelLoop keccak (cnt / 2) 0 s) := if_pos h

theorem treeLoop_one (fuel : ℕ) (s : MerkleState) : treeLoop keccak fuel 1 s = s := by
  cases fuel with
  | zero => rfl
  | succ fuel => exact if_neg (by omega)

theorem ints_levelLoop_zero
    (hints : ∀ x < 2 ^ (m + 1), s.ints[x]? = some ((g x).root (hashPair keccak))) :
    ∀ x < 2 ^ m, (levelLoop keccak (2 ^ m) 0 s).ints[x]? =
      some ((pair g x).root (hashPair keccak)) := by
  have hpow : 2 ^ (m + 1) = 2 * 2 ^ m := by ring
  have hread : ∀ x, 0 ≤ x → x < 2 * (0 + 2 ^ m) →
      s.ints[x]? = some ((g x).root (hashPair keccak)) := fun x _ hx => hints x (by omega)
  intro x hx
  exact ints_levelLoop hread (fun x hx => absurd hx (Nat.not_lt_zero x)) x (by omega)

theorem half_pow (m : ℕ) : 2 ^ (m + 1) / 2 = 2 ^ m := by
  rw [Nat.pow_succ]
  exact Nat.mul_div_cancel _ Nat.two_pos

theorem two_le_pow (m : ℕ) : 2 ≤ 2 ^ (m + 1) := by
  have := Nat.one_le_two_pow (n := m)
  rw [Nat.pow_succ]
  omega

/-- The levels one after another leave the root of the full tree in front. -/
theorem ints_treeLoop {fuel : ℕ} (hfuel : m ≤ fuel)
    (hints : ∀ x < 2 ^ m, s.ints[x]? = some ((g x).root (hashPair keccak))) :
    (treeLoop keccak fuel (2 ^ m) s).ints[0]? =
      some ((full m g 0).root (hashPair keccak)) := by
  induction m generalizing fuel g s with
  | zero =>
      rw [Nat.pow_zero, treeLoop_one]
      exact hints 0 (by simp)
  | succ m ih =>
      obtain ⟨fuel, rfl⟩ : ∃ n, fuel = n + 1 := ⟨fuel - 1, by omega⟩
      rw [treeLoop_succ (two_le_pow m), half_pow, ih (by omega) (ints_levelLoop_zero hints)]
      rw [← full_succ]

theorem found_treeLoop {fuel : ℕ} {found : List (Bool × Hash)} (hfuel : m ≤ fuel)
    (hints : ∀ x < 2 ^ m, s.ints[x]? = some ((g x).root (hashPair keccak)))
    (hnodup : ((full m g 0).values (hashPair keccak)).Nodup) (ht : t < 2 ^ m)
    (hfound : Found ((g t).root (hashPair keccak)) found s) :
    Found ((full m g 0).root (hashPair keccak))
      (found ++ siblings (hashPair keccak) m g t) (treeLoop keccak fuel (2 ^ m) s) := by
  induction m generalizing fuel g t s found with
  | zero =>
      obtain rfl : t = 0 := by simpa using ht
      rw [Nat.pow_zero, treeLoop_one]
      simpa [siblings, full] using hfound
  | succ m ih =>
      obtain ⟨fuel, rfl⟩ : ∃ n, fuel = n + 1 := ⟨fuel - 1, by omega⟩
      have hpow : 2 ^ (m + 1) = 2 * 2 ^ m := by ring
      obtain ⟨hh2, hbranch, hpath⟩ := levelLoop_tracked hnodup (Nat.zero_add _)
        (fun x _ hx => hints x hx) ht (Nat.zero_le _) hfound.h2
      have hup : full (m + 1) g 0 = full m (pair g) 0 := full_succ m g 0
      rw [treeLoop_succ (two_le_pow m), half_pow]
      rw [hup] at hnodup ⊢
      have hnext : Found ((pair g (t / 2)).root (hashPair keccak))
          (found ++ [(decide (t % 2 = 1), (sibling g t).root (hashPair keccak))])
          (levelLoop keccak (2 ^ m) 0 s) := by
        refine ⟨hh2, ?_, ?_⟩
        · rw [hbranch, hfound.branch]
          simp
        · rw [hpath, hfound.path, List.map_append, List.map_singleton, pathOf_snoc]
          rcases Nat.mod_two_eq_zero_or_one t with hmod | hmod
          · simp only [hmod]
            change _ = (_ + 0) % _
            omega
          · simp only [hmod]
            change _ = (_ + 1) % _
            omega
      have hle : m ≤ fuel := by omega
      have := ih hle (ints_levelLoop_zero hints) hnodup (by omega) hnext
      rwa [List.append_assoc] at this

end Levels

section Leaves

open Merkle

variable {keccak} {h : List Hash} {d t index left j : ℕ} {s : MerkleState}

/-- The `d`th power of two is the largest one up to the number of leaves. -/
structure LargestPower (h : List Hash) (d : ℕ) : Prop where
  lower : 2 ^ d ≤ h.length
  upper : h.length < 2 ^ (d + 1)

theorem LargestPower.singles_le (hd : LargestPower h d) : singles h.length d ≤ 2 ^ d := by
  have := hd.lower
  unfold singles
  omega

theorem bottom_single (hj : j < singles h.length d) : bottom h d j = .leaf h[j]! := if_pos hj

theorem bottom_pair (hj : singles h.length d ≤ j) :
    bottom h d j = .node (.leaf h[2 * j - singles h.length d]!)
      (.leaf h[2 * j - singles h.length d + 1]!) := if_neg (by omega)

theorem ints_leafStep (i j : ℕ) (s : MerkleState) :
    (leafStep keccak h i j s).ints = s.ints.set j (hashPair keccak h[i]! h[i + 1]!) := by
  unfold leafStep
  dsimp only
  split
  · rfl
  · split <;> rfl

theorem leafStep_cases (keccak : Buffer → Hash) (h : List Hash) (i j : ℕ) (s : MerkleState) :
    (h[i]! = s.h2 ∧ (leafStep keccak h i j s).h2 = hashPair keccak h[i]! h[i + 1]! ∧
      (leafStep keccak h i j s).branch = s.branch ++ [h[i + 1]!] ∧
      (leafStep keccak h i j s).path = s.path) ∨
    (h[i]! ≠ s.h2 ∧ h[i + 1]! = s.h2 ∧
      (leafStep keccak h i j s).h2 = hashPair keccak h[i]! h[i + 1]! ∧
      (leafStep keccak h i j s).branch = s.branch ++ [h[i]!] ∧
      (leafStep keccak h i j s).path = 1) ∨
    (h[i]! ≠ s.h2 ∧ h[i + 1]! ≠ s.h2 ∧ (leafStep keccak h i j s).h2 = s.h2 ∧
      (leafStep keccak h i j s).branch = s.branch ∧
      (leafStep keccak h i j s).path = s.path) := by
  unfold leafStep
  dsimp only
  split
  · next hleft => exact Or.inl ⟨hleft, rfl, rfl, rfl⟩
  · next hleft =>
    split
    · next hright => exact Or.inr (Or.inl ⟨hleft, hright, rfl, rfl, rfl⟩)
    · next hright => exact Or.inr (Or.inr ⟨hleft, hright, rfl, rfl, rfl⟩)

theorem ints_leafLoop (hj : j + left = 2 ^ d) (hk : singles h.length d ≤ j)
    (hlength : s.ints.length = 2 ^ d)
    (hdone : ∀ x < j, s.ints[x]? = some ((bottom h d x).root (hashPair keccak))) :
    ∀ x < 2 ^ d, (leafLoop keccak h left (2 * j - singles h.length d) j s).ints[x]? =
      some ((bottom h d x).root (hashPair keccak)) := by
  induction left generalizing j s with
  | zero =>
      intro x hx
      exact hdone x (by omega)
  | succ left ih =>
      have hnext : 2 * (j + 1) - singles h.length d = 2 * j - singles h.length d + 2 := by omega
      have hloop : leafLoop keccak h (left + 1) (2 * j - singles h.length d) j s =
          leafLoop keccak h left (2 * (j + 1) - singles h.length d) (j + 1)
            (leafStep keccak h (2 * j - singles h.length d) j s) := by rw [hnext]; rfl
      rw [hloop]
      refine ih (by omega) (by omega) ?_ fun x hx => ?_
      · rw [ints_leafStep, List.length_set, hlength]
      · rw [ints_leafStep]
        by_cases hxj : x = j
        · subst hxj
          rw [List.getElem?_set_self (by omega), bottom_pair hk]
          rfl
        · rw [List.getElem?_set_ne (by omega)]
          exact hdone x (by omega)

/-- The hashes of a pair of leaves belong to its node. -/
theorem pair_mem_values (keccak : Buffer → Hash) (hk : singles h.length d ≤ j) :
    h[2 * j - singles h.length d]! ∈ (bottom h d j).values (hashPair keccak) ∧
      h[2 * j - singles h.length d + 1]! ∈ (bottom h d j).values (hashPair keccak) := by
  rw [bottom_pair hk]
  constructor
  · simp [Merkle.Tree.values]
  · simp [Merkle.Tree.values]

theorem not_mem_values (hnodup : ((full d (bottom h d) 0).values (hashPair keccak)).Nodup)
    {i : ℕ} (hi : i < 2 ^ d) (hj : j < 2 ^ d) (hne : i ≠ j) {x : Hash}
    (hx : x ∈ (bottom h d i).values (hashPair keccak)) :
    x ∉ (bottom h d j).values (hashPair keccak) := by
  have := disjoint_of_full 0 hnodup hi hj hne (x := x)
  rw [Nat.zero_add, Nat.zero_add] at this
  exact this hx

/-- A node that the loop is not at is not met by it. -/
theorem leafLoop_passed (hnodup : ((full d (bottom h d) 0).values (hashPair keccak)).Nodup)
    (hj : j + left = 2 ^ d) (hk : singles h.length d ≤ j) (ht : t < j)
    (hh2 : s.h2 = (bottom h d t).root (hashPair keccak)) :
    (leafLoop keccak h left (2 * j - singles h.length d) j s).h2 = s.h2 ∧
      (leafLoop keccak h left (2 * j - singles h.length d) j s).branch = s.branch ∧
      (leafLoop keccak h left (2 * j - singles h.length d) j s).path = s.path := by
  induction left generalizing j s with
  | zero => exact ⟨rfl, rfl, rfl⟩
  | succ left ih =>
      have hnext : 2 * (j + 1) - singles h.length d = 2 * j - singles h.length d + 2 := by omega
      have hloop : leafLoop keccak h (left + 1) (2 * j - singles h.length d) j s =
          leafLoop keccak h left (2 * (j + 1) - singles h.length d) (j + 1)
            (leafStep keccak h (2 * j - singles h.length d) j s) := by rw [hnext]; rfl
      have hlt : j < 2 ^ d := by omega
      have hmiss : ∀ x ∈ (bottom h d j).values (hashPair keccak), x ≠ s.h2 := by
        intro x hx heq
        apply not_mem_values hnodup hlt (by omega) (by omega : j ≠ t) hx
        rw [heq, hh2]
        exact Merkle.Tree.root_mem_values _ _
      obtain ⟨hleft, hright⟩ := pair_mem_values keccak hk
      rw [hloop]
      rcases leafStep_cases keccak h (2 * j - singles h.length d) j s with
        ⟨heq, -⟩ | ⟨-, heq, -⟩ | ⟨-, -, hsame, hbranch, hpath⟩
      · exact absurd heq (hmiss _ hleft)
      · exact absurd heq (hmiss _ hright)
      · have := ih (s := leafStep keccak h (2 * j - singles h.length d) j s)
          (by omega : j + 1 + left = 2 ^ d) (by omega) (by omega) (hsame.trans hh2)
        rw [hsame, hbranch, hpath] at this
        exact this

/-- The node of the lowest full level that a leaf belongs to. -/
def above (h : List Hash) (d index : ℕ) : ℕ :=
  let k := singles h.length d
  if index < k then index else k + (index - k) / 2

/-- The leaf that a leaf is paired with, where it is not a single one. -/
def below (h : List Hash) (d index : ℕ) : List (Bool × Hash) :=
  let k := singles h.length d
  if index < k then []
  else if (index - k) % 2 = 1 then [(true, h[index - 1]!)] else [(false, h[index + 1]!)]

theorem below_even (hpair : singles h.length d ≤ index)
    (heven : (index - singles h.length d) % 2 ≠ 1) :
    below h d index = [(false, h[index + 1]!)] := by
  unfold below
  dsimp only
  rw [if_neg (by omega), if_neg heven]

theorem below_odd (hpair : singles h.length d ≤ index)
    (hodd : (index - singles h.length d) % 2 = 1) :
    below h d index = [(true, h[index - 1]!)] := by
  unfold below
  dsimp only
  rw [if_neg (by omega), if_pos hodd]

theorem above_lt (hd : LargestPower h d) (hindex : index < h.length) : above h d index < 2 ^ d := by
  have hk := hd.singles_le
  have hupper := hd.upper
  have hpow : 2 ^ (d + 1) = 2 * 2 ^ d := by ring
  unfold above
  dsimp only
  unfold singles at hk ⊢
  split
  · omega
  · omega

theorem leaf_mem_values (keccak : Buffer → Hash) (hd : LargestPower h d) :
    h[index]! ∈ (bottom h d (above h d index)).values (hashPair keccak) := by
  have hk := hd.singles_le
  unfold above
  dsimp only
  split
  · next hsingle =>
    rw [bottom_single hsingle]
    exact List.mem_singleton_self _
  · next hpair =>
    have hle : singles h.length d ≤
        singles h.length d + (index - singles h.length d) / 2 := by omega
    obtain ⟨hleft, hright⟩ := pair_mem_values keccak hle
    rcases Nat.mod_two_eq_zero_or_one (index - singles h.length d) with hmod | hmod
    · rwa [show 2 * (singles h.length d + (index - singles h.length d) / 2) -
        singles h.length d = index by omega] at hleft
    · rwa [show 2 * (singles h.length d + (index - singles h.length d) / 2) -
        singles h.length d + 1 = index by omega] at hright

theorem leafLoop_tracked (hnodup : ((full d (bottom h d) 0).values (hashPair keccak)).Nodup)
    (hd : LargestPower h d) (hindex : index < h.length) (hpair : singles h.length d ≤ index)
    (hj : j + left = 2 ^ d) (hk : singles h.length d ≤ j) (ht : j ≤ above h d index)
    (hfound : Found h[index]! [] s) :
    Found ((bottom h d (above h d index)).root (hashPair keccak)) (below h d index)
      (leafLoop keccak h left (2 * j - singles h.length d) j s) := by
  have habove : above h d index = singles h.length d + (index - singles h.length d) / 2 :=
    if_neg (by omega)
  have hlt := above_lt hd hindex
  induction left generalizing j s with
  | zero => omega
  | succ left ih =>
      have hnext : 2 * (j + 1) - singles h.length d = 2 * j - singles h.length d + 2 := by omega
      have hloop : leafLoop keccak h (left + 1) (2 * j - singles h.length d) j s =
          leafLoop keccak h left (2 * (j + 1) - singles h.length d) (j + 1)
            (leafStep keccak h (2 * j - singles h.length d) j s) := by rw [hnext]; rfl
      have hleft' : j + 1 + left = 2 ^ d := by omega
      obtain ⟨hleft, hright⟩ := pair_mem_values keccak hk
      have hleaf : h[index]! ∈ (bottom h d (above h d index)).values (hashPair keccak) :=
        leaf_mem_values keccak hd
      -- A pair that holds the leaf is its own pair.
      have hown : ∀ x ∈ (bottom h d j).values (hashPair keccak), x = h[index]! →
          j = above h d index := by
        intro x hx heq
        by_contra hne
        exact not_mem_values hnodup (by omega) hlt hne hx (heq ▸ hleaf)
      rw [hloop]
      rcases leafStep_cases keccak h (2 * j - singles h.length d) j s with
        ⟨heq, hparent, hbranch, hpath⟩ | ⟨hne, heq, hparent, hbranch, hpath⟩ |
        ⟨hmissl, hmissr, hsame, hbranch, hpath⟩
      · have hat := hown _ hleft (heq.trans hfound.h2)
        have hroot : hashPair keccak h[2 * j - singles h.length d]!
            h[2 * j - singles h.length d + 1]! =
              (bottom h d (above h d index)).root (hashPair keccak) := by
          rw [← hat, bottom_pair hk]
          rfl
        have heven : (index - singles h.length d) % 2 ≠ 1 := by
          intro hodd
          have hsnd : 2 * j - singles h.length d + 1 = index := by omega
          have hdistinct := nodup_of_full hnodup (j := j) (by omega)
          rw [Nat.zero_add, bottom_pair hk, hsnd] at hdistinct
          rw [hfound.h2] at heq
          simp [Merkle.Tree.values, heq] at hdistinct
        have hfirst : 2 * j - singles h.length d = index := by omega
        obtain ⟨hh2', hbranch', hpath'⟩ := leafLoop_passed (t := above h d index) hnodup hleft'
          (by omega) (by omega) (hparent.trans hroot)
        refine ⟨?_, ?_, ?_⟩
        · rw [hh2', hparent, hroot]
        · rw [hbranch', hbranch, hfound.branch, hfirst, below_even hpair heven]
          rfl
        · rw [hpath', hpath, hfound.path, below_even hpair heven]
          rfl
      · have hat := hown _ hright (heq.trans hfound.h2)
        have hroot : hashPair keccak h[2 * j - singles h.length d]!
            h[2 * j - singles h.length d + 1]! =
              (bottom h d (above h d index)).root (hashPair keccak) := by
          rw [← hat, bottom_pair hk]
          rfl
        have hodd : (index - singles h.length d) % 2 = 1 := by
          by_contra heven
          have hfst : 2 * j - singles h.length d = index := by omega
          rw [hfst] at hne
          exact hne hfound.h2.symm
        have hsecond : 2 * j - singles h.length d = index - 1 := by omega
        obtain ⟨hh2', hbranch', hpath'⟩ := leafLoop_passed (t := above h d index) hnodup hleft'
          (by omega) (by omega) (hparent.trans hroot)
        refine ⟨?_, ?_, ?_⟩
        · rw [hh2', hparent, hroot]
        · rw [hbranch', hbranch, hfound.branch, hsecond, below_odd hpair hodd]
          rfl
        · rw [hpath', hpath, below_odd hpair hodd]
          rfl
      · have hne : j ≠ above h d index := by
          intro hat
          rcases Nat.mod_two_eq_zero_or_one (index - singles h.length d) with hmod | hmod
          · apply hmissl
            rw [hfound.h2, show 2 * j - singles h.length d = index by omega]
          · apply hmissr
            rw [hfound.h2, show 2 * j - singles h.length d + 1 = index by omega]
        exact ih hleft' (by omega) (by omega)
          ⟨hsame.trans hfound.h2, hbranch.trans hfound.branch, hpath.trans hfound.path⟩

/-- The leaf loop ends at the node above the coinbase, with the leaf it is paired with. -/
theorem found_leafLoop (hnodup : ((full d (bottom h d) 0).values (hashPair keccak)).Nodup)
    (hd : LargestPower h d) (hindex : index < h.length)
    (hj : singles h.length d + left = 2 ^ d) (hfound : Found h[index]! [] s) :
    Found ((bottom h d (above h d index)).root (hashPair keccak)) (below h d index)
      (leafLoop keccak h left (singles h.length d) (singles h.length d) s) := by
  have hstart : singles h.length d = 2 * singles h.length d - singles h.length d := by omega
  by_cases hsingle : index < singles h.length d
  · have habove : above h d index = index := if_pos hsingle
    have hbelow : below h d index = [] := if_pos hsingle
    have hroot : s.h2 = (bottom h d index).root (hashPair keccak) := by
      rw [hfound.h2, bottom_single hsingle]
      rfl
    obtain ⟨hh2, hbranch, hpath⟩ := leafLoop_passed hnodup hj le_rfl hsingle hroot
    rw [← hstart] at hh2 hbranch hpath
    rw [habove, hbelow]
    exact ⟨hh2.trans hroot, hbranch.trans hfound.branch, hpath.trans hfound.path⟩
  · have hle : singles h.length d ≤ above h d index := by
      unfold above
      dsimp only
      rw [if_neg hsingle]
      omega
    have := leafLoop_tracked hnodup hd hindex (by omega) hj le_rfl hle hfound
    rwa [← hstart] at this

theorem length_set_bottom (x : Hash) : singles (h.set index x).length d = singles h.length d := by
  rw [List.length_set]

theorem getElem!_set_ne {i : ℕ} (x : Hash) (hne : index ≠ i) : (h.set index x)[i]! = h[i]! := by
  rw [List.getElem!_eq_getElem?_getD, List.getElem?_set_ne hne, ← List.getElem!_eq_getElem?_getD]

theorem getElem!_set_self (x : Hash) (hindex : index < h.length) : (h.set index x)[index]! = x := by
  rw [List.getElem!_eq_getElem?_getD, List.getElem?_set_self hindex]
  rfl

/-- With another coinbase only the node above it changes. -/
theorem bottom_set (keccak : Buffer → Hash) (hd : LargestPower h d)
    (hindex : index < h.length) (x : Hash) :
    ∃ node : Merkle.Tree Hash, node.root (hashPair keccak) =
        climb (hashPair keccak) x (below h d index) ∧
      ∀ j < 2 ^ d, bottom (h.set index x) d j =
        Function.update (bottom h d) (above h d index) node j := by
  have hk := hd.singles_le
  by_cases hsingle : index < singles h.length d
  · have habove : above h d index = index := if_pos hsingle
    refine ⟨.leaf x, ?_, fun j _ => ?_⟩
    · rw [show below h d index = [] from if_pos hsingle]
      rfl
    · rw [habove]
      by_cases hj : j = index
      · subst hj
        rw [Function.update_self, bottom_single (by rwa [length_set_bottom]),
          getElem!_set_self x hindex]
      · rw [Function.update_of_ne hj]
        by_cases hjk : j < singles h.length d
        · rw [bottom_single (by rwa [length_set_bottom]), bottom_single hjk,
            getElem!_set_ne x (Ne.symm hj)]
        · rw [bottom_pair (by rw [length_set_bottom]; omega), bottom_pair (by omega),
            length_set_bottom, getElem!_set_ne x (by omega), getElem!_set_ne x (by omega)]
  · have habove : above h d index = singles h.length d + (index - singles h.length d) / 2 :=
      if_neg hsingle
    have hother : ∀ j, j ≠ above h d index →
        bottom (h.set index x) d j = bottom h d j := by
      intro j hj
      by_cases hjk : j < singles h.length d
      · rw [bottom_single (by rwa [length_set_bottom]), bottom_single hjk,
          getElem!_set_ne x (by omega)]
      · rw [bottom_pair (by rw [length_set_bottom]; omega), bottom_pair (by omega),
          length_set_bottom, getElem!_set_ne x (by omega), getElem!_set_ne x (by omega)]
    have hpair : singles h.length d ≤ above h d index := by omega
    by_cases hodd : (index - singles h.length d) % 2 = 1
    · refine ⟨.node (.leaf h[index - 1]!) (.leaf x), ?_, fun j _ => ?_⟩
      · rw [below_odd (by omega) hodd]
        rfl
      · by_cases hj : j = above h d index
        · subst hj
          rw [Function.update_self, bottom_pair (by rwa [length_set_bottom]), length_set_bottom,
            show 2 * above h d index - singles h.length d = index - 1 by omega,
            show index - 1 + 1 = index by omega, getElem!_set_ne x (by omega),
            getElem!_set_self x hindex]
        · rw [Function.update_of_ne hj, hother j hj]
    · refine ⟨.node (.leaf x) (.leaf h[index + 1]!), ?_, fun j _ => ?_⟩
      · rw [below_even (by omega) hodd]
        rfl
      · by_cases hj : j = above h d index
        · subst hj
          rw [Function.update_self, bottom_pair (by rwa [length_set_bottom]), length_set_bottom,
            show 2 * above h d index - singles h.length d = index by omega,
            getElem!_set_self x hindex, getElem!_set_ne x (by omega)]
        · rw [Function.update_of_ne hj, hother j hj]

end Leaves

section Trees

open Merkle

variable {keccak} {h : List Hash} {d index : ℕ}

theorem largestPower_log (hne : h ≠ []) : LargestPower h (Nat.log 2 h.length) :=
  ⟨Nat.pow_log_le_self 2 (by simpa using hne),
    Nat.lt_pow_succ_log_self Nat.one_lt_two h.length⟩

/-- The level that the program starts from is the lowest full one, or the one below it when the
number of leaves is a power of two. -/
theorem cryptoNote_eq (hd : LargestPower h d) : cryptoNote h = full d (bottom h d) 0 := by
  have hlower := hd.lower
  have hupper := hd.upper
  unfold cryptoNote
  dsimp only
  by_cases hpower : h.length = 2 ^ d
  · rw [hpower, Nat.clog_pow 2 d Nat.one_lt_two]
    cases d with
    | zero => rfl
    | succ d =>
        have hpow : 2 ^ (d + 1) = 2 * 2 ^ d := by ring
        have hsingles : singles h.length d = 0 := by
          unfold singles
          omega
        have hsingles' : singles h.length (d + 1) = 2 ^ (d + 1) := by
          unfold singles
          omega
        rw [show (0 : ℕ) = 2 * 0 from rfl, full_succ, Nat.add_sub_cancel]
        refine full_congr fun j hj => ?_
        rw [Nat.zero_add]
        unfold pair
        rw [bottom_pair (by omega), hsingles, bottom_single (by omega), bottom_single (by omega)]
        rfl
  · have hclog : Nat.clog 2 h.length = d + 1 := by
      apply le_antisymm ((Nat.clog_le_iff_le_pow Nat.one_lt_two).mpr (by omega))
      exact (Nat.lt_clog_iff_pow_lt Nat.one_lt_two).mpr (by omega)
    rw [hclog, Nat.add_sub_cancel]

theorem shrinkLoop_eq {count : ℕ} (hlower : 2 ^ d ≤ count)
    (hupper : count < 2 ^ (d + 1)) {a fuel : ℕ} (ha : a ≤ d) (hfuel : d ≤ a + fuel) :
    shrinkLoop count fuel (2 ^ (a + 1)) = 2 ^ d := by
  induction fuel generalizing a with
  | zero =>
      obtain rfl : a = d := by omega
      exact half_pow a
  | succ fuel ih =>
      unfold shrinkLoop
      by_cases hend : a = d
      · subst hend
        rw [if_neg (by omega), half_pow]
      · have hle : 2 ^ (a + 1) ≤ 2 ^ d := Nat.pow_le_pow_right Nat.two_pos (by omega)
        rw [if_pos (by omega), ← Nat.pow_succ]
        exact ih (by omega) (by omega)

/-- The bits of the path, from the highest one, say on which side each sibling stands. -/
theorem rootLoop_eq_climb {path : ℕ} {found : List (Bool × Hash)}
    (hpath : path % 2 ^ found.length = pathOf (found.map Prod.fst)) (x : Hash) :
    rootLoop keccak path (found.map Prod.snd) x = climb (hashPair keccak) x found := by
  induction found generalizing x with
  | nil => rfl
  | cons s rest ih =>
      obtain ⟨side, sibling⟩ := s
      rw [List.map_cons, pathOf_cons, List.length_map, List.length_cons, Nat.pow_succ] at hpath
      have hlt := pathOf_lt (rest.map Prod.fst)
      rw [List.length_map] at hlt
      have hrest : path % 2 ^ rest.length = pathOf (rest.map Prod.fst) := by
        rw [← Nat.mod_mul_right_mod path (2 ^ rest.length) 2, hpath, Nat.mul_add_mod',
          Nat.mod_eq_of_lt hlt]
      have hbit : path / 2 ^ rest.length % 2 = side.toNat := by
        rw [← Nat.mod_mul_right_div_self, hpath, Nat.mul_comm side.toNat,
          Nat.mul_add_div (Nat.two_pow_pos _), Nat.div_eq_of_lt hlt, Nat.add_zero]
      have hstep : rootStep keccak path (rest.length + 1) x sibling =
          if side then hashPair keccak sibling x else hashPair keccak x sibling := by
        unfold rootStep
        rw [Nat.add_sub_cancel, Nat.and_one_is_mod, Nat.shiftRight_eq_div_pow, hbit]
        cases side <;> rfl
      rw [List.map_cons]
      unfold rootLoop
      rw [List.length_map, hstep, ih hrest]
      rfl

/-- The state of the loops before the first one. -/
def startState (h : List Hash) (d index : ℕ) : MerkleState where
  h2 := h[index]!
  ints := h.take (singles h.length d) ++ List.replicate (2 ^ d - singles h.length d) Hash.zero

theorem found_startState (h : List Hash) (d index : ℕ) :
    Found h[index]! [] (startState h d index) :=
  ⟨rfl, rfl, rfl⟩

theorem length_startState (hd : LargestPower h d) : (startState h d index).ints.length = 2 ^ d := by
  have hk := hd.singles_le
  have hle := hd.lower
  simp only [startState, List.length_append, List.length_take, List.length_replicate]
  omega

theorem getElem?_startState (hd : LargestPower h d) {x : ℕ} (hx : x < singles h.length d) :
    (startState h d index).ints[x]? = some ((bottom h d x).root (hashPair keccak)) := by
  have hk := hd.singles_le
  have hle := hd.lower
  have hlt : x < h.length := by omega
  unfold startState
  dsimp only
  rw [List.getElem?_append_left (by rw [List.length_take]; omega),
    List.getElem?_take_of_lt hx, bottom_single hx, List.getElem?_eq_getElem hlt,
    List.getElem!_eq_getElem?_getD, List.getElem?_eq_getElem hlt]
  rfl

theorem calculateMerkleTreeHash_loops (hthree : 3 ≤ h.length) (hd : LargestPower h d) (index : ℕ) :
    calculateMerkleTreeHash keccak h index =
      let s := treeLoop keccak (2 ^ d) (2 ^ d)
        (leafLoop keccak h (2 ^ d - singles h.length d) (singles h.length d) (singles h.length d)
          (startState h d index))
      { rootHash := s.ints[0]!
        branch := s.branch
        path := s.path } := by
  have hcnt : shrinkLoop h.length h.length 2 = 2 ^ d := by
    apply shrinkLoop_eq hd.lower hd.upper (a := 0) (Nat.zero_le d)
    have := Nat.lt_two_pow_self (n := d)
    have := hd.lower
    omega
  have hk : 2 ^ d * 2 - h.length = singles h.length d := by
    unfold singles
    rw [Nat.mul_comm]
  unfold calculateMerkleTreeHash
  dsimp only
  rw [if_neg (by omega), if_neg (by omega), hcnt, hk]
  rfl

theorem ints_loops (hd : LargestPower h d) (index : ℕ) :
    ∀ x < 2 ^ d, (leafLoop keccak h (2 ^ d - singles h.length d) (singles h.length d)
        (singles h.length d) (startState h d index)).ints[x]? =
      some ((bottom h d x).root (hashPair keccak)) := by
  have hk := hd.singles_le
  have hstart : singles h.length d = 2 * singles h.length d - singles h.length d := by omega
  have hleft : singles h.length d + (2 ^ d - singles h.length d) = 2 ^ d := by omega
  have hlength : (startState h d index).ints.length = 2 ^ d := length_startState hd
  have hsingle : ∀ x < singles h.length d, (startState h d index).ints[x]? =
      some ((bottom h d x).root (hashPair keccak)) := fun x hx => getElem?_startState hd hx
  have := ints_leafLoop hleft le_rfl hlength hsingle
  rwa [← hstart] at this

/-- The loops compute the CryptoNote tree hash. -/
theorem rootHash_calculateMerkleTreeHash (keccak : Buffer → Hash) (hne : h ≠ []) (index : ℕ) :
    (calculateMerkleTreeHash keccak h index).rootHash = treeHash (hashPair keccak) h := by
  have hd := largestPower_log hne
  generalize Nat.log 2 h.length = d at hd
  have htree : treeHash (hashPair keccak) h = (full d (bottom h d) 0).root (hashPair keccak) := by
    unfold treeHash
    rw [cryptoNote_eq hd]
  match h, hne with
  | [a], _ =>
      have hd0 : LargestPower [a] 0 := ⟨le_rfl, by simp⟩
      unfold treeHash
      rw [cryptoNote_eq hd0]
      rfl
  | [a, b], _ =>
      have hd1 : LargestPower [a, b] 1 := ⟨le_rfl, by simp⟩
      unfold treeHash
      rw [cryptoNote_eq hd1]
      rfl
  | a :: b :: c :: rest, _ =>
      have hthree : 3 ≤ (a :: b :: c :: rest).length := by simp
      rw [htree, calculateMerkleTreeHash_loops hthree hd index]
      exact getElem!_of_getElem? (ints_treeLoop (Nat.lt_two_pow_self).le (ints_loops hd index))

theorem length_found (hd : LargestPower h d) (hindex : index < h.length)
    (hlength : h.length ≤ 2 ^ 32) :
    (below h d index ++ siblings (hashPair keccak) d (bottom h d) (above h d index)).length ≤
      32 := by
  have hlower := hd.lower
  have hdle : d ≤ 32 := (Nat.pow_le_pow_iff_right Nat.one_lt_two).mp (hlower.trans hlength)
  rw [List.length_append, length_siblings]
  by_cases hsingle : index < singles h.length d
  · rw [show below h d index = [] from if_pos hsingle, List.length_nil]
    omega
  · have hlt : 2 ^ d < 2 ^ 32 := by
      unfold singles at hsingle
      omega
    have hdlt : d < 32 := (Nat.pow_lt_pow_iff_right Nat.one_lt_two).mp hlt
    have hone : (below h d index).length ≤ 1 := by
      unfold below
      dsimp only
      split
      · simp
      · split <;> simp
    omega

/-- With the branch and the path of a coinbase, any other coinbase leads to the tree hash of the
list in which it stands. -/
theorem rootLoop_calculateMerkleTreeHash
    (hnodup : ((cryptoNote h).values (hashPair keccak)).Nodup) (hindex : index < h.length)
    (hlength : h.length ≤ 2 ^ 32) (x : Hash) :
    rootLoop keccak (calculateMerkleTreeHash keccak h index).path
        (calculateMerkleTreeHash keccak h index).branch x =
      treeHash (hashPair keccak) (h.set index x) := by
  have hne : h ≠ [] := by
    rintro rfl
    simp at hindex
  have hd := largestPower_log hne
  generalize Nat.log 2 h.length = d at hd
  match h, hne with
  | [a], _ =>
      obtain rfl : index = 0 := by simpa using hindex
      have hd0 : LargestPower [x] 0 := ⟨le_rfl, by simp⟩
      unfold treeHash
      rw [show ([a].set 0 x) = [x] from rfl, cryptoNote_eq hd0]
      rfl
  | [a, b], _ =>
      have hindex : index < 2 := hindex
      interval_cases index
      · have hd1 : LargestPower [x, b] 1 := ⟨le_rfl, by simp⟩
        unfold treeHash
        rw [show ([a, b].set 0 x) = [x, b] from rfl, cryptoNote_eq hd1]
        have hloop : rootLoop keccak (calculateMerkleTreeHash keccak [a, b] 0).path
            (calculateMerkleTreeHash keccak [a, b] 0).branch x = hashPair keccak x b := by
          simp [calculateMerkleTreeHash, rootLoop, rootStep]
        exact hloop
      · have hd1 : LargestPower [a, x] 1 := ⟨le_rfl, by simp⟩
        unfold treeHash
        rw [show ([a, b].set 1 x) = [a, x] from rfl, cryptoNote_eq hd1]
        have hloop : rootLoop keccak (calculateMerkleTreeHash keccak [a, b] 1).path
            (calculateMerkleTreeHash keccak [a, b] 1).branch x = hashPair keccak a x := by
          simp [calculateMerkleTreeHash, rootLoop, rootStep]
        exact hloop
  | a :: b :: c :: rest, _ =>
      generalize hlist : a :: b :: c :: rest = h at *
      have hthree : 3 ≤ h.length := by simp [← hlist]
      have hk := hd.singles_le
      have habove := above_lt hd hindex
      rw [cryptoNote_eq hd] at hnodup
      have hleft : singles h.length d + (2 ^ d - singles h.length d) = 2 ^ d := by omega
      have hleaf := found_leafLoop hnodup hd hindex hleft (found_startState h d index)
      have hfound := found_treeLoop (Nat.lt_two_pow_self).le (ints_loops hd index)
        hnodup habove hleaf
      obtain ⟨node, hnode, hset⟩ := bottom_set keccak hd hindex x
      have hd' : LargestPower (h.set index x) d :=
        ⟨by rw [List.length_set]; exact hd.lower, by rw [List.length_set]; exact hd.upper⟩
      have htree : treeHash (hashPair keccak) (h.set index x) =
          climb (hashPair keccak) x (below h d index ++
            siblings (hashPair keccak) d (bottom h d) (above h d index)) := by
        unfold treeHash
        rw [cryptoNote_eq hd', full_congr (g := Function.update (bottom h d) (above h d index) node)
          fun j hj => by rw [Nat.zero_add]; exact hset j hj, root_full_update habove, hnode]
        unfold climb
        rw [List.foldl_append]
      rw [htree, calculateMerkleTreeHash_loops hthree hd index]
      dsimp only
      rw [hfound.branch]
      refine rootLoop_eq_climb ?_ x
      have hpathLt := pathOf_lt ((below h d index ++
        siblings (hashPair keccak) d (bottom h d) (above h d index)).map Prod.fst)
      rw [List.length_map] at hpathLt
      have hbound : 2 ^ (below h d index ++ siblings (hashPair keccak) d (bottom h d)
          (above h d index)).length ≤ 2 ^ 32 :=
        Nat.pow_le_pow_right Nat.two_pos (length_found hd hindex hlength)
      rw [hfound.path, Nat.mod_eq_of_lt (by omega : _ < 2 ^ 32), Nat.mod_eq_of_lt hpathLt]

end Trees

end BlockTemplate

end XmrigProxy
