import Mathlib.Data.Nat.Notation
import Mathlib.Tactic.Common

/-!
# Sponges on 64-bit words

A sponge mixes the bytes of its input into an array of words, one after another, and permutes the
array whenever a block of them is complete. Whether the bytes come one by one, as words, or as
blocks makes no difference.
-/

namespace XmrigProxy.Sponge

variable {n : ℕ}

def xorAt (st : Vector (BitVec 64) n) (i : ℕ) (w : BitVec 64) : Vector (BitVec 64) n :=
  st.mapIdx fun j v => if j = i then v ^^^ w else v

/-- A byte at its place in a word. -/
def byteAt (i : ℕ) (b : UInt8) : BitVec 64 := b.toBitVec.setWidth 64 <<< (8 * i)

/-- A byte at its place in the array, in little-endian words. -/
def xorByte (st : Vector (BitVec 64) n) (pos : ℕ) (b : UInt8) : Vector (BitVec 64) n :=
  xorAt st (pos / 8) (byteAt (pos % 8) b)

def mix (st : Vector (BitVec 64) n) (pos : ℕ) : List UInt8 → Vector (BitVec 64) n
  | [] => st
  | b :: bs => mix (xorByte st pos b) (pos + 1) bs

/-- The bytes of a word from the `i`-th on. -/
def gather (w : BitVec 64) (i : ℕ) : List UInt8 → BitVec 64
  | [] => w
  | b :: bs => gather (w ||| byteAt i b) (i + 1) bs

section Words

variable {st : Vector (BitVec 64) n} {bs : List UInt8}

theorem xorAt_xorAt (st : Vector (BitVec 64) n) (i : ℕ) (v w : BitVec 64) :
    xorAt (xorAt st i v) i w = xorAt st i (v ^^^ w) := by
  apply Vector.ext
  intro j hj
  simp only [xorAt, Vector.getElem_mapIdx]
  split
  · rw [BitVec.xor_assoc]
  · rfl

@[simp] theorem xorAt_zero (st : Vector (BitVec 64) n) (i : ℕ) : xorAt st i 0#64 = st := by
  apply Vector.ext
  intro j hj
  simp [xorAt]

theorem mix_append (st : Vector (BitVec 64) n) (pos : ℕ) (bs cs : List UInt8) :
    mix st pos (bs ++ cs) = mix (mix st pos bs) (pos + bs.length) cs := by
  induction bs generalizing st pos with
  | nil => rfl
  | cons b bs ih =>
      rw [List.cons_append, mix, mix, ih, List.length_cons]
      congr 1
      omega

@[simp] theorem xorByte_zero (st : Vector (BitVec 64) n) (pos : ℕ) : xorByte st pos 0 = st := by
  simp [xorByte, byteAt]

theorem mix_zeros (st : Vector (BitVec 64) n) (pos k : ℕ) :
    mix st pos (List.replicate k 0) = st := by
  induction k generalizing pos with
  | zero => rfl
  | succ k ih => rw [List.replicate_succ, mix, xorByte_zero, ih]

/-- The places of a word that come after some bytes are free. -/
def Free (w : BitVec 64) (i : ℕ) : Prop := ∀ k, 8 * i ≤ k → w.getLsbD k = false

theorem free_zero (i : ℕ) : Free 0 i := fun k _ => by simp

theorem getLsbD_byteAt (i : ℕ) (b : UInt8) (k : ℕ) (hk : 8 * (i + 1) ≤ k) :
    (byteAt i b).getLsbD k = false := by
  rw [byteAt, BitVec.getLsbD_shiftLeft, BitVec.getLsbD_setWidth,
    BitVec.getLsbD_of_ge _ _ (by omega)]
  simp

theorem Free.or_eq_xor {w : BitVec 64} {i : ℕ} (h : Free w i) (b : UInt8) :
    w ||| byteAt i b = w ^^^ byteAt i b := by
  ext k hk
  rw [BitVec.getElem_or, BitVec.getElem_xor]
  by_cases hki : 8 * i ≤ k
  · have hfree := h k hki
    rw [BitVec.getLsbD_eq_getElem hk] at hfree
    rw [hfree]
    simp
  · have hbyte : (byteAt i b)[k] = false := by
      rw [byteAt, BitVec.getElem_shiftLeft]
      simp [hki]
    rw [hbyte]
    simp

theorem Free.or {w : BitVec 64} {i : ℕ} (h : Free w i) (b : UInt8) :
    Free (w ||| byteAt i b) (i + 1) := by
  intro k hk
  rw [BitVec.getLsbD_or, h k (by omega), getLsbD_byteAt i b k hk]
  rfl

theorem Free.gather {w : BitVec 64} {i : ℕ} (h : Free w i) (bs : List UInt8) :
    Free (gather w i bs) (i + bs.length) := by
  induction bs generalizing w i with
  | nil => exact h
  | cons b bs ih =>
      have hrest := ih (h.or b)
      rw [List.length_cons]
      rwa [show i + (bs.length + 1) = i + 1 + bs.length by omega]

/-- Bytes may be gathered in a word before they are mixed in. -/
theorem xorAt_gather {w : BitVec 64} {i : ℕ} (h : Free w i) (hfits : i + bs.length ≤ 8) (j : ℕ) :
    xorAt st j (gather w i bs) = mix (xorAt st j w) (8 * j + i) bs := by
  induction bs generalizing w i with
  | nil => rfl
  | cons b bs ih =>
      rw [List.length_cons] at hfits
      rw [gather, mix, ih (h.or b) (by omega), h.or_eq_xor, ← xorAt_xorAt, xorByte,
        show (8 * j + i) / 8 = j by omega, show (8 * j + i) % 8 = i by omega, Nat.add_assoc]

theorem xorAt_gather_zero (hfits : bs.length ≤ 8) (j : ℕ) :
    xorAt st j (gather 0 0 bs) = mix st (8 * j) bs := by
  rw [xorAt_gather (free_zero 0) (by omega), Nat.add_zero]
  exact congrArg (mix · _ _) (xorAt_zero _ _)

/-- The whole words of some bytes, one after another. -/
def xorWords (st : Vector (BitVec 64) n) (start : ℕ) (bs : List UInt8) (k : ℕ) :
    Vector (BitVec 64) n :=
  (List.range k).foldl
    (fun st i => xorAt st (start + i) (gather 0 0 ((bs.drop (8 * i)).take 8))) st

theorem xorWords_eq (start : ℕ) {k : ℕ} (hk : 8 * k ≤ bs.length) :
    xorWords st start bs k = mix st (8 * start) (bs.take (8 * k)) := by
  induction k with
  | zero => rfl
  | succ k ih =>
      have hbytes : ((bs.drop (8 * k)).take 8).length = 8 := by
        rw [List.length_take, List.length_drop]
        omega
      rw [xorWords, List.range_succ, List.foldl_append]
      change xorAt (xorWords st start bs k) (start + k) _ = _
      rw [xorAt_gather_zero (Nat.le_of_eq hbytes), ih (by omega),
        show 8 * (k + 1) = 8 * k + 8 by omega, List.take_add, mix_append, List.length_take,
        Nat.min_eq_left (by omega), Nat.mul_add]

end Words

/-- `pos` counts the bytes of the block at hand. -/
structure Absorbing (n : ℕ) where
  words : Vector (BitVec 64) n
  pos : ℕ

variable (f : Vector (BitVec 64) n → Vector (BitVec 64) n) (rate : ℕ)

/-- A block that is complete is permuted. -/
def settle (s : Absorbing n) : Absorbing n := if s.pos = rate then ⟨f s.words, 0⟩ else s

def absorb (s : Absorbing n) (b : UInt8) : Absorbing n :=
  settle f rate ⟨xorByte s.words s.pos b, s.pos + 1⟩

def absorbs (s : Absorbing n) (bs : List UInt8) : Absorbing n := bs.foldl (absorb f rate) s

/-- The padding begins with the bits of `suffix` and ends with the last bit of the block. -/
def finish (suffix : UInt8) (s : Absorbing n) : Vector (BitVec 64) n :=
  f (xorByte (xorByte s.words s.pos suffix) (rate - 1) 0x80)

section Blocks

variable {f rate} {st : Vector (BitVec 64) n} {pos : ℕ} {bs : List UInt8}

theorem absorbs_append (s : Absorbing n) (bs cs : List UInt8) :
    absorbs f rate s (bs ++ cs) = absorbs f rate (absorbs f rate s bs) cs :=
  List.foldl_append

/-- Bytes that do not reach the end of the block. -/
theorem absorbs_of_lt (h : pos + bs.length < rate) :
    absorbs f rate ⟨st, pos⟩ bs = ⟨mix st pos bs, pos + bs.length⟩ := by
  induction bs generalizing st pos with
  | nil => rfl
  | cons b bs ih =>
      rw [List.length_cons] at h
      have hstep : absorb f rate ⟨st, pos⟩ b = ⟨xorByte st pos b, pos + 1⟩ :=
        if_neg (by dsimp only; omega)
      rw [absorbs, List.foldl_cons, hstep]
      change absorbs f rate _ bs = _
      rw [ih (by omega), mix, List.length_cons]
      congr 1
      omega

/-- Bytes that may reach it. -/
theorem absorbs_of_le (hne : bs ≠ []) (h : pos + bs.length ≤ rate) :
    absorbs f rate ⟨st, pos⟩ bs = settle f rate ⟨mix st pos bs, pos + bs.length⟩ := by
  obtain ⟨front, last, rfl⟩ := (List.eq_nil_or_concat bs).resolve_left hne
  rw [List.concat_eq_append] at h ⊢
  rw [List.length_append, List.length_singleton] at h
  have hfront : absorbs f rate ⟨st, pos⟩ front = ⟨mix st pos front, pos + front.length⟩ :=
    absorbs_of_lt (by omega)
  rw [absorbs_append, hfront, mix_append, List.length_append]
  rfl

/-- A whole block. -/
theorem absorbs_block (hrate : 0 < rate) (hlength : bs.length = rate) :
    absorbs f rate ⟨st, 0⟩ bs = ⟨f (mix st 0 bs), 0⟩ := by
  rw [absorbs_of_le (List.ne_nil_of_length_pos (by omega)) (by omega)]
  exact if_pos (by dsimp only; omega)

end Blocks

end XmrigProxy.Sponge
