import XmrigProxy.Keccak
import XmrigProxy.Library.Sponge

/-! The hash of a whole buffer: its blocks are mixed into the state one after another, and the last
one is padded in a buffer of its own. -/
namespace XmrigProxy.Keccak

open Sponge

def KECCAK_ROUNDS : ℕ := 24

def HASH_DATA_AREA : ℕ := 136

/-- The size of the buffer for the last block. -/
def tempSize : ℕ := 144

def rsiz (mdlen : ℕ) : ℕ := if 200 = mdlen then HASH_DATA_AREA else 200 - 2 * mdlen

def zeroState : Lanes := Vector.replicate 25 0

/-- The whole blocks, and what is left of the input. -/
def blocks (rsiz : ℕ) : ℕ → Lanes → List UInt8 → Lanes × List UInt8
  | 0, st, input => (st, input)
  | fuel + 1, st, input =>
      if rsiz ≤ input.length then
        blocks rsiz fuel (keccakf (xorWords st 0 input (rsiz / 8)) KECCAK_ROUNDS) (input.drop rsiz)
      else (st, input)

def lastBlock (rsiz : ℕ) (input : List UInt8) : List UInt8 :=
  let temp := input ++ 1 :: List.replicate (rsiz - (input.length + 1)) 0
  temp.set (rsiz - 1) (temp.getD (rsiz - 1) 0 ||| 0x80)

/-- The words as they lie in memory. -/
def bytes (st : Lanes) : List UInt8 :=
  st.toList.flatMap fun (w : BitVec 64) =>
    (List.range 8).map fun i => UInt8.ofBitVec ((w >>> (8 * i)).setWidth 8)

def keccak (input : List UInt8) (mdlen : ℕ) : List UInt8 :=
  let rest := blocks (rsiz mdlen) input.length zeroState input
  let temp := lastBlock (rsiz mdlen) rest.2
  (bytes (keccakf (xorWords rest.1 0 temp (rsiz mdlen / 8)) KECCAK_ROUNDS)).take mdlen

/-! ### The sponge -/

/-- The lengths for which the blocks are whole words, and the last one fits its buffer. -/
structure Supported (mdlen : ℕ) : Prop where
  words : 8 ∣ rsiz mdlen
  positive : 0 < rsiz mdlen
  fits : rsiz mdlen ≤ tempSize

instance (mdlen : ℕ) : Decidable (Supported mdlen) :=
  decidable_of_iff (8 ∣ rsiz mdlen ∧ 0 < rsiz mdlen ∧ rsiz mdlen ≤ tempSize)
    ⟨fun h => ⟨h.1, h.2.1, h.2.2⟩, fun h => ⟨h.1, h.2, h.3⟩⟩

/-- The Keccak permutation of the words. -/
def permute (st : Lanes) : Lanes := keccakf st KECCAK_ROUNDS

/-- The state after some input, one byte after another. -/
def absorbed (rate : ℕ) (input : List UInt8) : Absorbing 25 :=
  absorbs permute rate ⟨zeroState, 0⟩ input

def sponge (rate : ℕ) (suffix : UInt8) (input : List UInt8) : List UInt8 :=
  bytes (finish permute rate suffix (absorbed rate input))

section Blocks

variable {rate : ℕ}

theorem blocks_rest (hrate : 0 < rate) {fuel : ℕ} {st : Lanes} {input : List UInt8}
    (hfuel : input.length ≤ fuel) : (blocks rate fuel st input).2.length < rate := by
  induction fuel generalizing st input with
  | zero =>
      rw [Nat.le_zero.mp hfuel |> List.length_eq_zero_iff.mp]
      exact hrate
  | succ fuel ih =>
      rw [blocks]
      split
      · apply ih
        rw [List.length_drop]
        omega
      · rename_i hshort
        exact Nat.lt_of_not_le hshort

theorem absorbs_blocks (hwords : 8 ∣ rate) (hrate : 0 < rate) {fuel : ℕ} {st : Lanes}
    {input : List UInt8} :
    absorbs permute rate ⟨st, 0⟩ input =
      absorbs permute rate ⟨(blocks rate fuel st input).1, 0⟩ (blocks rate fuel st input).2 := by
  induction fuel generalizing st input with
  | zero => rfl
  | succ fuel ih =>
      rw [blocks]
      split
      · rename_i hlong
        rw [← ih]
        have hblock : (input.take rate).length = rate := by
          rw [List.length_take]
          omega
        conv_lhs => rw [← List.take_append_drop rate input, absorbs_append,
          absorbs_block hrate hblock]
        rw [xorWords_eq 0 (by rw [Nat.mul_div_cancel' hwords]; exact hlong),
          Nat.mul_div_cancel' hwords]
        rfl
      · rfl

theorem byteAt_xor (i : ℕ) (b c : UInt8) : byteAt i (b ^^^ c) = byteAt i b ^^^ byteAt i c := by
  simp only [byteAt, UInt8.toBitVec_xor, BitVec.setWidth_xor, BitVec.shiftLeft_xor_distrib]

theorem xorByte_xor (st : Lanes) (pos : ℕ) (b c : UInt8) :
    xorByte st pos (b ^^^ c) = xorByte (xorByte st pos b) pos c := by
  rw [xorByte, byteAt_xor, ← xorAt_xorAt]
  rfl

theorem or_last (init : List UInt8) (x : UInt8) :
    (init ++ [x]).set init.length ((init ++ [x]).getD init.length 0 ||| 0x80) =
      init ++ [x ||| 0x80] := by
  have hlast : (init ++ [x]).getD init.length 0 = x := by
    rw [List.getD_eq_getElem?_getD, List.getElem?_concat_length, Option.getD_some]
  rw [hlast, List.set_append_right _ _ le_rfl, Nat.sub_self]
  rfl

theorem mix_or_last (st : Lanes) (init : List UInt8) {x : UInt8} (hx : x ||| 0x80 = x ^^^ 0x80) :
    mix st 0 (init ++ [x ||| 0x80]) = xorByte (mix st 0 (init ++ [x])) init.length 0x80 := by
  rw [mix_append, mix_append, hx, Nat.zero_add]
  exact xorByte_xor _ _ _ _

/-- The padding of the last block is that of the sponge. -/
theorem mix_lastBlock (st : Lanes) {input : List UInt8} (hshort : input.length < rate) :
    (lastBlock rate input).length = rate ∧
      mix st 0 (lastBlock rate input) =
        xorByte (xorByte (mix st 0 input) input.length 1) (rate - 1) 0x80 := by
  obtain ⟨k, rfl⟩ := Nat.exists_eq_add_of_lt hshort
  have hzeros : input.length + k + 1 - (input.length + 1) = k := by omega
  have hpadded : mix st 0 (input ++ 1 :: List.replicate k 0) =
      xorByte (mix st 0 input) input.length 1 := by
    rw [mix_append, mix, mix_zeros, Nat.zero_add]
  rw [← hpadded, lastBlock, hzeros, Nat.add_sub_cancel]
  cases k with
  | zero =>
      rw [List.replicate_zero, Nat.add_zero, or_last]
      exact ⟨by simp, mix_or_last st input (by decide)⟩
  | succ k =>
      have hinit : input ++ 1 :: List.replicate (k + 1) 0 =
          (input ++ 1 :: List.replicate k 0) ++ [(0 : UInt8)] := by
        rw [List.replicate_succ', List.append_assoc, List.cons_append]
      have hlength : (input ++ (1 : UInt8) :: List.replicate k 0).length =
          input.length + (k + 1) := by
        simp
      rw [hinit, ← hlength, or_last]
      refine ⟨by simp; omega, mix_or_last st _ (by decide)⟩

end Blocks

/-- The hash of a buffer is the sponge with the Keccak permutation, one byte after another. -/
theorem keccak_eq {mdlen : ℕ} (h : Supported mdlen) (input : List UInt8) :
    keccak input mdlen = (sponge (rsiz mdlen) 1 input).take mdlen := by
  obtain ⟨hwords, hrate, -⟩ := h
  have hrest : (blocks (rsiz mdlen) input.length zeroState input).2.length < rsiz mdlen :=
    blocks_rest hrate (le_refl input.length)
  rw [keccak, sponge, absorbed, @absorbs_blocks (rsiz mdlen) hwords hrate input.length]
  generalize blocks (rsiz mdlen) input.length zeroState input = rest at hrest
  obtain ⟨st, tail⟩ := rest
  obtain ⟨hlength, hmix⟩ := mix_lastBlock st hrest
  rw [absorbs_of_lt (by rw [Nat.zero_add]; exact hrest)]
  dsimp only
  rw [xorWords_eq 0 (by rw [Nat.mul_div_cancel' hwords, hlength]), Nat.mul_div_cancel' hwords,
    List.take_of_length_le hlength.le, Nat.mul_zero, hmix, finish, Nat.zero_add]
  rfl

theorem keccak_eq_two_blocks : keccak (List.replicate 200 7) 32 =
    (sponge (rsiz 32) 1 (List.replicate 200 7)).take 32 :=
  keccak_eq (by decide) (List.replicate 200 7)

end XmrigProxy.Keccak
