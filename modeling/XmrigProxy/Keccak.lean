import XmrigProxy.Library.InPlace
import Mathlib.Algebra.Group.Nat.Defs
import Mathlib.Data.List.FinRange
import Mathlib.Data.Fintype.Basic
import Mathlib.Tactic.FinCases

/-! The Keccak permutation, computed in place on an array of 25 words. -/
namespace XmrigProxy.Keccak

abbrev Lanes := Vector (BitVec 64) 25

def keccakf_rndc : List (BitVec 64) :=
  [0x0000000000000001, 0x0000000000008082, 0x800000000000808a,
   0x8000000080008000, 0x000000000000808b, 0x0000000080000001,
   0x8000000080008081, 0x8000000000008009, 0x000000000000008a,
   0x0000000000000088, 0x0000000080008009, 0x000000008000000a,
   0x000000008000808b, 0x800000000000008b, 0x8000000000008089,
   0x8000000000008003, 0x8000000000008002, 0x8000000000000080,
   0x000000000000800a, 0x800000008000000a, 0x8000000080008081,
   0x8000000000008080, 0x0000000080000001, 0x8000000080008008]

theorem lane_lt (x y : Fin 5) : x.val + 5 * y.val < 25 := by omega

def lane (x y : Fin 5) : Fin 25 := ⟨x + 5 * y, lane_lt x y⟩

def put (st : Lanes) (i : Fin 25) (w : BitVec 64) : Lanes := st.set i w

/-! ### The steps of a round -/

def column (st : Lanes) (x : Fin 5) : BitVec 64 :=
  st[lane x 0] ^^^ st[lane x 1] ^^^ st[lane x 2] ^^^ st[lane x 3] ^^^ st[lane x 4]

def thetaMoves : List (InPlace.Move 25 (Fin 5)) :=
  (List.finRange 5).flatMap fun i => (List.finRange 5).map fun k => ⟨lane i k, lane i k, i⟩

def theta (st : Lanes) : Lanes :=
  let bc := Vector.ofFn (column st)
  InPlace.run (fun (i : Fin 5) w => w ^^^ (bc[i + 4] ^^^ bc[i + 1].rotateLeft 1)) thetaMoves st

def rhoPiMoves : List (InPlace.Move 25 ℕ) :=
  [⟨1, 6, 44⟩, ⟨6, 9, 20⟩, ⟨9, 22, 61⟩, ⟨22, 14, 39⟩,
   ⟨14, 20, 18⟩, ⟨20, 2, 62⟩, ⟨2, 12, 43⟩, ⟨12, 13, 25⟩,
   ⟨13, 19, 8⟩, ⟨19, 23, 56⟩, ⟨23, 15, 41⟩, ⟨15, 4, 27⟩,
   ⟨4, 24, 14⟩, ⟨24, 21, 2⟩, ⟨21, 8, 55⟩, ⟨8, 16, 45⟩,
   ⟨16, 5, 36⟩, ⟨5, 3, 28⟩, ⟨3, 18, 21⟩, ⟨18, 17, 15⟩,
   ⟨17, 11, 10⟩, ⟨11, 7, 6⟩, ⟨7, 10, 3⟩]

def rhoPi (st : Lanes) : Lanes :=
  let t := st[1]
  put (InPlace.run (fun r w => w.rotateLeft r) rhoPiMoves st) 10 (t.rotateLeft 1)

def chiRow (st : Lanes) (y : Fin 5) : Lanes :=
  let bc0 := st[lane 0 y]
  let bc1 := st[lane 1 y]
  let st := put st (lane 0 y) (st[lane 0 y] ^^^ (~~~st[lane 1 y] &&& st[lane 2 y]))
  let st := put st (lane 1 y) (st[lane 1 y] ^^^ (~~~st[lane 2 y] &&& st[lane 3 y]))
  let st := put st (lane 2 y) (st[lane 2 y] ^^^ (~~~st[lane 3 y] &&& st[lane 4 y]))
  let st := put st (lane 3 y) (st[lane 3 y] ^^^ (~~~st[lane 4 y] &&& bc0))
  put st (lane 4 y) (st[lane 4 y] ^^^ (~~~bc0 &&& bc1))

/-- The last row, which is saved as a whole. -/
def chiLastRow (st : Lanes) : Lanes :=
  let bc := Vector.ofFn fun x : Fin 5 => st[lane x 4]
  let st := put st (lane 0 4) (st[lane 0 4] ^^^ (~~~bc[1] &&& bc[2]))
  let st := put st (lane 1 4) (st[lane 1 4] ^^^ (~~~bc[2] &&& bc[3]))
  let st := put st (lane 2 4) (st[lane 2 4] ^^^ (~~~bc[3] &&& bc[4]))
  let st := put st (lane 3 4) (st[lane 3 4] ^^^ (~~~bc[4] &&& bc[0]))
  put st (lane 4 4) (st[lane 4 4] ^^^ (~~~bc[0] &&& bc[1]))

def chi (st : Lanes) : Lanes := chiLastRow ([0, 1, 2, 3].foldl chiRow st)

def iota (rndc : BitVec 64) (st : Lanes) : Lanes := put st (lane 0 0) (st[lane 0 0] ^^^ rndc)

def round (st : Lanes) (rndc : BitVec 64) : Lanes := iota rndc (chi (rhoPi (theta st)))

def keccakf (st : Lanes) (rounds : ℕ) : Lanes := (keccakf_rndc.take rounds).foldl round st

/-! ### The permutation -/

namespace Spec

/-- The words as a square, the column first. -/
abbrev Square := Fin 5 → Fin 5 → BitVec 64

variable (a : Square)

def parity (x : Fin 5) : BitVec 64 := a x 0 ^^^ a x 1 ^^^ a x 2 ^^^ a x 3 ^^^ a x 4

def theta : Square := fun x y => a x y ^^^ (parity a (x - 1) ^^^ (parity a (x + 1)).rotateLeft 1)

/-- The way through the square on which the words are rotated further and further. -/
def walk : ℕ → Fin 5 × Fin 5
  | 0 => (1, 0)
  | t + 1 => ((walk t).2, 2 * (walk t).1 + 3 * (walk t).2)

def offset (x y : Fin 5) : ℕ :=
  ((List.range 24).find? fun t => walk t = (x, y)).elim 0 fun t => (t + 1) * (t + 2) / 2 % 64

def rho : Square := fun x y => (a x y).rotateLeft (offset x y)

def pi : Square := fun x y => a (x + 3 * y) x

def chi : Square := fun x y => a x y ^^^ (~~~a (x + 1) y &&& a (x + 2) y)

/-- The states of the shift register that makes the constants. -/
def register : ℕ → BitVec 8
  | 0 => 1
  | t + 1 => if (register t).msb then (register t <<< 1) ^^^ 0x71 else register t <<< 1

/-- The bits at the places before the powers of two. -/
def constant (t : ℕ) : BitVec 64 :=
  (List.range 7).foldl (fun c j =>
    if (register (j + 7 * t)).getLsbD 0 then c ||| 1 <<< (2 ^ j - 1) else c) 0

def iota (rndc : BitVec 64) : Square := fun x y => if x = 0 ∧ y = 0 then a x y ^^^ rndc else a x y

def round (t : ℕ) : Square := iota (chi (pi (rho (theta a)))) (constant t)

def permute (rounds : ℕ) : Square := (List.range rounds).foldl round a

end Spec

def square (st : Lanes) : Spec.Square := fun x y => st[lane x y]

theorem constants : keccakf_rndc = (List.range 24).map Spec.constant := by
  decide +kernel

section Steps

variable (st : Lanes)

theorem getElem_put (i j : Fin 25) (w : BitVec 64) :
    (put st i w)[j] = if j = i then w else st[j] := by
  unfold put
  by_cases hij : j = i
  · subst hij
    rw [if_pos rfl]
    exact Vector.getElem_set_self _
  · rw [if_neg hij]
    exact Vector.getElem_set_ne _ _ fun heq => hij (Fin.ext heq.symm)

theorem lane_inj (x y x' y' : Fin 5) : lane x y = lane x' y' ↔ x = x' ∧ y = y' := by
  simp only [lane, Fin.ext_iff]
  omega

theorem thetaMoves_find (x y : Fin 5) :
    (thetaMoves.find? fun m => m.dest = lane x y) = some ⟨lane x y, lane x y, x⟩ := by
  decide +revert +kernel

theorem thetaMoves_independent : InPlace.Independent thetaMoves := by
  decide +kernel

theorem sub_one_eq (x : Fin 5) : x - 1 = x + 4 := by
  revert x
  decide

theorem square_theta : square (theta st) = Spec.theta (square st) := by
  funext x y
  have h := InPlace.getElem_run
    (fun (i : Fin 5) w => w ^^^ ((Vector.ofFn (column st))[i + 4] ^^^
      (Vector.ofFn (column st))[i + 1].rotateLeft 1)) thetaMoves_independent st (lane x y)
  rw [thetaMoves_find] at h
  apply h.trans
  simp only [Option.elim, Fin.getElem_fin, Vector.getElem_ofFn]
  rw [Spec.theta, sub_one_eq]
  rfl

theorem rhoPiMoves_independent : InPlace.Independent rhoPiMoves := by
  decide +kernel

/-- The moves follow the walk backwards; the word that it begins with is kept aside. -/
theorem rhoPiMoves_find (x y : Fin 5) (h : lane x y ≠ 10) :
    (rhoPiMoves.find? fun m => m.dest = lane x y) =
      if lane x y = 0 then none
      else some ⟨lane x y, lane (x + 3 * y) x, Spec.offset (x + 3 * y) x⟩ := by
  revert h
  decide +revert +kernel

theorem rotateLeft_zero (w : BitVec 64) : w.rotateLeft 0 = w := by
  simp [BitVec.rotateLeft, BitVec.rotateLeftAux, BitVec.ushiftRight_eq_zero]

theorem square_rhoPi : square (rhoPi st) = Spec.pi (Spec.rho (square st)) := by
  funext x y
  rw [square, rhoPi, getElem_put]
  split
  · rename_i hlast
    obtain ⟨rfl, rfl⟩ := (lane_inj x y 0 2).mp hlast
    rfl
  · rename_i hne
    have h := InPlace.getElem_run (fun r (w : BitVec 64) => w.rotateLeft r)
      rhoPiMoves_independent st (lane x y)
    rw [rhoPiMoves_find x y hne] at h
    apply h.trans
    split
    · rename_i hfirst
      obtain ⟨rfl, rfl⟩ := (lane_inj x y 0 0).mp hfirst
      change st[lane 0 0] = st[lane 0 0].rotateLeft (Spec.offset 0 0)
      rw [show Spec.offset 0 0 = 0 from rfl]
      exact (rotateLeft_zero _).symm
    · rfl

theorem square_chiRow (y : Fin 5) : square (chiRow st y) =
    fun x y' => if y' = y then Spec.chi (square st) x y' else square st x y' := by
  funext x y'
  unfold chiRow square Spec.chi
  simp only [getElem_put, lane_inj]
  by_cases hy : y' = y
  · subst hy
    fin_cases x <;> simp
  · simp [hy]

theorem square_chiLastRow : square (chiLastRow st) =
    fun x y => if y = 4 then Spec.chi (square st) x y else square st x y := by
  funext x y
  unfold chiLastRow square Spec.chi
  simp only [getElem_put, lane_inj]
  by_cases hy : y = 4
  · subst hy
    fin_cases x <;> simp
  · simp [hy]

theorem square_chi : square (chi st) = Spec.chi (square st) := by
  funext x y
  unfold chi
  simp only [List.foldl_cons, List.foldl_nil, square_chiLastRow, square_chiRow]
  fin_cases y <;> simp [Spec.chi]

theorem square_iota (rndc : BitVec 64) :
    square (iota rndc st) = Spec.iota (square st) rndc := by
  funext x y
  rw [square, iota, getElem_put, Spec.iota]
  by_cases hfirst : x = 0 ∧ y = 0
  · rw [if_pos hfirst, if_pos ((lane_inj x y 0 0).mpr hfirst), hfirst.1, hfirst.2]
    rfl
  · rw [if_neg hfirst, if_neg fun heq => hfirst ((lane_inj x y 0 0).mp heq)]
    rfl

end Steps

theorem square_round (st : Lanes) (t : ℕ) :
    square (round st (Spec.constant t)) = Spec.round (square st) t := by
  rw [round, square_iota, square_chi, square_rhoPi, square_theta]
  rfl

/-- What the assignments in place compute is the Keccak permutation. -/
theorem square_keccakf (st : Lanes) (rounds : ℕ) (h : rounds ≤ 24) :
    square (keccakf st rounds) = Spec.permute (square st) rounds := by
  have htake : keccakf_rndc.take rounds = (List.range rounds).map Spec.constant := by
    rw [constants, ← List.map_take, List.take_range, min_eq_left h]
  rw [keccakf, htake, Spec.permute]
  clear h htake
  induction rounds with
  | zero => rfl
  | succ n ih =>
      rw [List.range_succ, List.map_append, List.foldl_append, List.foldl_append, ← ih]
      exact square_round _ n

theorem square_keccakf_zero :
    square (keccakf (Vector.replicate 25 0) 24) =
      Spec.permute (square (Vector.replicate 25 0)) 24 :=
  square_keccakf _ 24 (le_refl 24)

end XmrigProxy.Keccak
