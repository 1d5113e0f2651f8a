import XmrigProxy.Library.Radix
import XmrigProxy.WalletAddress
import Mathlib.Data.List.GetD
import Mathlib.Tactic.IntervalCases
import Mathlib.Tactic.NormNum
import Mathlib.Tactic.Ring

/-! Which texts are wallet addresses, and which of them the decoder accepts. Its 64-bit sums are the
numbers of the blocks, and a block that is too large for them is refused; of the last, shorter block
only the low bytes are kept. -/
namespace XmrigProxy

namespace WalletAddress

open BlockTemplate (word64)

def base58 : Radix UInt8 where
  base := 58
  digit c := alphabet.idxOf c
  symbol n := alphabet.getD n 0
  one_lt := by decide
  digit_symbol := by decide +kernel
  symbol_digit := by
    intro c hc
    have hlength : alphabet.length = 58 := by decide
    have hlt : alphabet.idxOf c < alphabet.length := by omega
    rw [List.getD_eq_getElem _ _ hlt]
    exact List.getElem_idxOf hlt

def octets : Radix UInt8 where
  base := 256
  digit b := b.toNat
  symbol n := UInt8.ofNat n
  one_lt := by decide
  digit_symbol := fun _ hn => UInt8.toNat_ofNat_of_lt' hn
  symbol_digit := fun b _ => UInt8.ofNat_toNat

def blockSize (k : ℕ) : ℕ := blockSizes.getD k 0

/-- Blocks of eight bytes in eleven characters each. -/
def cryptonote : BlockCode UInt8 UInt8 where
  chars := base58
  bytes := octets
  full := 8
  size := blockSize
  full_pos := by decide
  fits := by
    intro k hk
    change 256 ^ k ≤ 58 ^ blockSize k
    interval_cases k <;> decide +kernel

/-- An optional Townforge prefix, and a text that it can stand before. -/
inductive Splits : Buffer → Buffer → Prop where
  | plain {b : Buffer} (h : b.take 2 ≠ [char 'T', char 'F']) : Splits [] b
  | townforge {version net : UInt8} {b : Buffer} (hversion : version ∈ [char '1', char '2'])
      (hnet : net ∈ [char 'M', char 'T', char 'S']) :
      Splits [char 'T', char 'F', version, net] b

/-- The bytes of an address: every part has its size, and the checksum is that of what precedes
it. -/
structure Content (keccak : Buffer → Hash) where
  more : Buffer
  last : UInt8
  spendKey : Buffer
  viewKey : Buffer
  extra : Buffer
  checksum : Buffer
  more_length : more.length < 10
  more_continued : ∀ b ∈ more, ¬ b.toNat < 128
  last_ends : last.toNat < 128
  spendKey_length : spendKey.length = kKeySize
  viewKey_length : viewKey.length = kKeySize
  checksum_length : checksum.length = 4
  checksum_eq : checksum =
    (keccak (more ++ last :: spendKey ++ viewKey ++ extra)).bytes.take 4

def Content.bytes {keccak : Buffer → Hash} (c : Content keccak) : Buffer :=
  c.more ++ c.last :: c.spendKey ++ c.viewKey ++ c.extra ++ c.checksum

def Canonical (keccak : Buffer → Hash) (s : Buffer) : Prop :=
  ∃ p b, s = p ++ b ∧ Splits p b ∧ kMinSize ≤ b.length ∧ b.length ≤ kMaxSize ∧
    ∃ c : Content keccak, b = cryptonote.encode c.bytes

/-- The blocks of a text and their reading, of which `excess` is left out. -/
structure Blocks (b data : Buffer) (excess : ℕ) (n k : ℕ) : Prop where
  min : kMinSize ≤ b.length
  max : b.length ≤ kMaxSize
  short : k < 8
  length : b.length = n * 11 + blockSize k
  valid : base58.Valid b
  range : cryptonote.InRange n b
  data_eq : cryptonote.read n k b = data
  over_eq : cryptonote.lastDropped n k b = excess

def Reads (s data : Buffer) (excess : ℕ) : Prop :=
  ∃ p b n k, s = p ++ b ∧ Splits p b ∧ Blocks b data excess n k

section Numbers

theorem blockSize_le {k : ℕ} (hk : k < 8) : blockSize k ≤ 10 := by
  interval_cases k <;> decide

theorem idxOf?_blockSizes {r k : ℕ} (hr : r < 11) :
    blockSizes.idxOf? r = some k ↔ k < 8 ∧ blockSize k = r := by
  constructor
  · intro h
    have hk : k < 9 := by
      have hlt := (List.idxOf?_eq_some_iff.mp h).1
      exact hlt
    interval_cases r <;> interval_cases k <;> revert h <;> decide
  · rintro ⟨hk, rfl⟩
    interval_cases k <;> decide

theorem idxOf?_alphabet (c : UInt8) :
    alphabet.idxOf? c = if base58.digit c < 58 then some (base58.digit c) else none := by
  have hlength : alphabet.length = 58 := by decide
  have hdigit : base58.digit c = (alphabet.idxOf? c).getD alphabet.length :=
    List.idxOf_eq_getD_idxOf? c alphabet
  cases h : alphabet.idxOf? c with
  | none =>
      rw [h, hlength] at hdigit
      rw [hdigit]
      rfl
  | some i =>
      rw [h] at hdigit
      have hi : i < 58 := hlength ▸ (List.idxOf?_eq_some_iff.mp h).1
      rw [hdigit]
      exact (if_pos hi).symm

/-- Either sum that leaves 64 bits ends the loop; eleven characters never wrap the order itself. -/
theorem blockLoop_eq {cs : Buffer} {num order i : ℕ} (horder : order = 58 ^ i % 2 ^ 64)
    (hlength : i + cs.length ≤ 11) (hnum : num < 2 ^ 64) :
    blockLoop cs num order =
      if base58.Valid cs ∧ num + 58 ^ i * Nat.ofDigits 58 (cs.map base58.digit) < 2 ^ 64 then
        some (num + 58 ^ i * Nat.ofDigits 58 (cs.map base58.digit))
      else none := by
  induction cs generalizing num order i with
  | nil =>
      rw [List.map_nil, Nat.ofDigits_nil, Nat.mul_zero, Nat.add_zero]
      exact (if_pos ⟨fun _ h => absurd h List.not_mem_nil, hnum⟩).symm
  | cons c cs ih =>
      rw [List.length_cons] at hlength
      have hi : 58 ^ i ≤ 58 ^ 10 := Nat.pow_le_pow_right (by decide) (by omega)
      have hsmall : 58 ^ i % 2 ^ 64 = 58 ^ i := Nat.mod_eq_of_lt (by omega)
      rw [hsmall] at horder
      subst horder
      rw [blockLoop, idxOf?_alphabet]
      by_cases hc : base58.digit c < 58
      · rw [if_pos hc]
        have hvalid : base58.Valid (c :: cs) ↔ base58.Valid cs := by
          constructor
          · intro h a ha
            exact h a (List.mem_cons_of_mem _ ha)
          · intro h a ha
            rcases List.mem_cons.mp ha with rfl | ha
            · exact hc
            · exact h a ha
        have hsum : num + 58 ^ i * Nat.ofDigits 58 ((c :: cs).map base58.digit) =
            num + 58 ^ i * base58.digit c +
              58 ^ (i + 1) * Nat.ofDigits 58 (cs.map base58.digit) := by
          rw [List.map_cons, Nat.ofDigits_cons, Nat.pow_succ]
          ring
        simp only [hvalid, hsum]
        by_cases hfits : num + 58 ^ i * base58.digit c < 2 ^ 64
        · have hproduct : word64 (58 ^ i * base58.digit c) = 58 ^ i * base58.digit c :=
            Nat.mod_eq_of_lt (by omega)
          have htmp : word64 (num + word64 (58 ^ i * base58.digit c)) =
              num + 58 ^ i * base58.digit c := by
            rw [hproduct]
            exact Nat.mod_eq_of_lt hfits
          have hhi : 58 ^ i * base58.digit c / 2 ^ 64 = 0 := Nat.div_eq_of_lt (by omega)
          rw [htmp, hhi, if_neg (by omega)]
          refine ih ?_ (by omega) hfits
          rw [Nat.pow_succ]
          rfl
        · rw [if_pos, if_neg (by omega)]
          by_cases hhi : 58 ^ i * base58.digit c / 2 ^ 64 = 0
          · left
            have hlow : 58 ^ i * base58.digit c < 2 ^ 64 := by omega
            unfold word64
            omega
          · exact Or.inr hhi
      · rw [if_neg hc, if_neg]
        rintro ⟨hvalid, -⟩
        exact hc (hvalid c List.mem_cons_self)

theorem blockLoop_reverse {cs : Buffer} (hlength : cs.length ≤ 11) :
    blockLoop cs.reverse 0 1 =
      if base58.Valid cs ∧ base58.value cs < 2 ^ 64 then some (base58.value cs) else none := by
  have hvalid : base58.Valid cs.reverse ↔ base58.Valid cs := by
    constructor
    · intro h a ha
      exact h a (List.mem_reverse.mpr ha)
    · intro h a ha
      exact h a (List.mem_reverse.mp ha)
  have hvalue : 0 + 58 ^ 0 * Nat.ofDigits 58 (cs.reverse.map base58.digit) = base58.value cs := by
    rw [Nat.pow_zero, Nat.one_mul, Nat.zero_add]
    rfl
  have hloop := @blockLoop_eq cs.reverse 0 1 0 rfl (by rw [List.length_reverse]; omega) (by decide)
  simp only [hvalue, hvalid] at hloop
  exact hloop

theorem emplace_eq (k v : ℕ) : emplace k v = octets.write k (v % 256 ^ k) := by
  have hlt : v % 256 ^ k < octets.base ^ k := Nat.mod_lt _ (Nat.pow_pos (by decide))
  have hvalid : octets.Valid (emplace k v) := fun b _ => UInt8.toNat_lt b
  refine Radix.value_inj hvalid (Radix.valid_write _ _) ?_ ?_
  · rw [Radix.length_write hlt, emplace, List.length_map, List.length_reverse, List.length_range]
  · rw [Radix.value_write hlt]
    change Nat.ofDigits 256 ((emplace k v).reverse.map UInt8.toNat) = v % 256 ^ k
    rw [emplace, ← List.map_reverse, List.reverse_reverse, List.map_map]
    clear hlt hvalid
    induction k with
    | zero => rw [List.range_zero, List.map_nil, Nat.ofDigits_nil, Nat.pow_zero, Nat.mod_one]
    | succ k ih =>
        have hbyte : (UInt8.toNat ∘ fun j => UInt8.ofNat (v / 2 ^ (8 * j))) k =
            v / 256 ^ k % 256 := by
          rw [Function.comp_apply, UInt8.toNat_ofNat', Nat.pow_mul]
        rw [List.range_succ, List.map_append, Nat.ofDigits_append, ih, List.map_singleton,
          Nat.ofDigits_singleton, hbyte, List.length_map, List.length_range, Nat.mod_pow_succ]

theorem valid_of_parts {b : Buffer} {n : ℕ} (htake : base58.Valid (b.take n))
    (hdrop : base58.Valid (b.drop n)) : base58.Valid b := by
  rw [← List.take_append_drop n b]
  exact htake.append hdrop

theorem blocksLoop_eq {n k : ℕ} {b : Buffer} (hk : k < 8)
    (hlength : b.length = n * 11 + blockSize k) :
    blocksLoop (blockSize k) k n b =
      if base58.Valid b ∧ cryptonote.InRange n b then some (cryptonote.read n k b) else none := by
  induction n generalizing b with
  | zero =>
      rw [Nat.zero_mul, Nat.zero_add] at hlength
      have hsize := blockSize_le hk
      rw [blocksLoop, ← hlength, List.take_length, blockLoop_reverse (by omega)]
      by_cases hvalid : base58.Valid b
      · have hvalue : base58.value b < 58 ^ b.length := Radix.value_lt hvalid
        have hpow : 58 ^ b.length ≤ 58 ^ 10 := Nat.pow_le_pow_right (by decide) (by omega)
        rw [if_pos ⟨hvalid, by omega⟩, if_pos ⟨hvalid, trivial⟩, Option.map_some, emplace_eq]
        rfl
      · rw [if_neg fun h => hvalid h.1, if_neg fun h => hvalid h.1, Option.map_none]
  | succ n ih =>
      rw [Nat.succ_mul] at hlength
      have htake : (b.take 11).length = 11 := by
        rw [List.length_take]
        omega
      have hdrop : (b.drop 11).length = n * 11 + blockSize k := by
        rw [List.length_drop]
        omega
      have hblock := blockLoop_reverse htake.le
      have hrest := ih hdrop
      rw [blocksLoop, hblock, hrest]
      have hrange : cryptonote.InRange (n + 1) b ↔
          base58.value (b.take 11) < 2 ^ 64 ∧ cryptonote.InRange n (b.drop 11) := by
        have hdropped : cryptonote.dropped 8 (b.take 11) = 0 ↔ base58.value (b.take 11) < 2 ^ 64 :=
          Nat.div_eq_zero_iff_lt (by decide)
        exact and_congr_left fun _ => hdropped
      by_cases hall : base58.Valid b ∧ cryptonote.InRange (n + 1) b
      · obtain ⟨hvalid, hin⟩ := hall
        obtain ⟨hlt, hin'⟩ := hrange.mp hin
        have hdropvalid : base58.Valid (b.drop 11) := hvalid.drop 11
        rw [if_pos ⟨hvalid.take 11, hlt⟩, if_pos ⟨hdropvalid, hin'⟩, if_pos ⟨hvalid, hin⟩,
          Option.bind_some, Option.map_some, emplace_eq]
        rfl
      · rw [if_neg hall]
        by_cases hhead : base58.Valid (b.take 11) ∧ base58.value (b.take 11) < 2 ^ 64
        · rw [if_pos hhead, if_neg, Option.bind_some, Option.map_none]
          rintro ⟨hdropvalid, hin'⟩
          exact hall ⟨valid_of_parts hhead.1 hdropvalid, hrange.mpr ⟨hhead.2, hin'⟩⟩
        · rw [if_neg hhead, Option.bind_none]

theorem Blocks.length_data {b data : Buffer} {excess n k : ℕ} (h : Blocks b data excess n k) :
    data.length = n * 8 + k := by
  rw [← h.data_eq]
  exact BlockCode.length_read n k b

/-- The limits of a text are limits of its bytes, which stay far below 64 bits. -/
theorem Blocks.length_bounds {b data : Buffer} {excess n k : ℕ} (h : Blocks b data excess n k) :
    kMinDataSize ≤ data.length ∧ data.length < 256 := by
  have hdata := h.length_data
  have hmin : 95 ≤ b.length := h.min
  have hmax : b.length ≤ 256 := h.max
  have hlength := h.length
  have hshort := h.short
  have hsize := blockSize_le h.short
  have hfew : k < 5 → blockSize k ≤ 6 := by
    intro hk
    interval_cases k <;> decide
  constructor
  · change 69 ≤ data.length
    omega
  · omega

/-- The loops accept a text exactly when it has a reading, and then give that. -/
theorem blocks_eq_some {b data : Buffer} :
    blocks b = some data ↔ ∃ excess n k, Blocks b data excess n k := by
  unfold blocks
  constructor
  · intro h
    split at h
    · cases h
    · rename_i hbounds
      obtain ⟨k, hk, h⟩ := Option.bind_eq_some_iff.mp h
      split at h
      · cases h
      · obtain ⟨hshort, hsize⟩ := (idxOf?_blockSizes (Nat.mod_lt _ (by decide))).mp hk
        have hlength : b.length = b.length / 11 * 11 + blockSize k := by omega
        rw [← hsize, blocksLoop_eq hshort hlength] at h
        split at h
        · rename_i hread
          exact ⟨_, _, k, by omega, by omega, hshort, hlength, hread.1, hread.2,
            Option.some.inj h, rfl⟩
        · cases h
  · rintro ⟨excess, n, k, h⟩
    have hmin := h.min
    have hmax := h.max
    have hlength := h.length
    have hsize := blockSize_le h.short
    have hn : b.length / 11 = n := by omega
    have hr : b.length % 11 = blockSize k := by omega
    have hk := (idxOf?_blockSizes (r := blockSize k) (by omega)).mpr ⟨h.short, rfl⟩
    have hdata : ¬ n * 8 + k < kMinDataSize := by
      rw [← h.length_data]
      exact not_lt.mpr h.length_bounds.1
    rw [if_neg (by omega)]
    dsimp only
    rw [hn, hr, hk, Option.bind_some, if_neg hdata, blocksLoop_eq h.short h.length,
      if_pos ⟨h.valid, h.range⟩, h.data_eq]

end Numbers

section Fields

open BlobReader

variable {data : Buffer}

/-- The bytes of the varint that the data starts with. -/
def tagSize (data : Buffer) : ℕ := data.findIdx (fun b => b.toNat < 128) + 1

theorem outcome_getByte {ar : BlobReader 0 data.length} (h : ar.index < data.length) :
    ((getByte ar).run (source data)).outcome = .ok (data[ar.index], ⟨ar.index + 1⟩) := by
  have hanswer : (source data).answer (0 + ar.index) = .ok data[ar.index] := by
    unfold source
    dsimp only
    rw [Nat.zero_add, List.getElem?_eq_getElem h]
  rw [getByte, if_neg (not_le.mpr h), Ask.outcome_bind_ok (Ask.outcome_question hanswer)]
  exact Ask.outcome_bind_ok rfl

/-- An eleventh byte of a varint has no place in 64 bits. -/
theorem outcome_varintLoop {left shift result i : ℕ} {ar : BlobReader 0 data.length}
    (hroom : ar.index + left < data.length)
    (hi : (data.drop ar.index).findIdx (fun b => b.toNat < 128) = i) :
    (i < left → ∃ v, ((varintLoop left shift result ar).run (source data)).outcome =
      .ok (v, ⟨ar.index + i + 1⟩)) ∧
    (left ≤ i → ((varintLoop left shift result ar).run (source data)).outcome =
      .error .undefined) := by
  induction left generalizing shift result i ar with
  | zero =>
      refine ⟨fun h => absurd h (Nat.not_lt_zero i), fun _ => ?_⟩
      have hindex : ar.index < data.length := hroom
      rw [varintLoop, Ask.outcome_bind_ok (outcome_getByte hindex)]
      exact Ask.outcome_bind_ok rfl
  | succ left ih =>
      have hindex : ar.index < data.length := by omega
      rw [List.drop_eq_getElem_cons hindex, List.findIdx_cons] at hi
      rw [varintLoop, Ask.outcome_bind_ok (outcome_getByte hindex)]
      dsimp only
      rw [Ask.outcome_bind_ok rfl]
      by_cases hlast : data[ar.index].toNat < 128
      · rw [decide_eq_true hlast, cond_true] at hi
        subst hi
        refine ⟨fun _ => ?_, fun h => absurd h (by omega)⟩
        rw [if_neg (by omega)]
        exact ⟨_, rfl⟩
      · rw [decide_eq_false hlast, cond_false] at hi
        have hnext := @ih (shift + 7) (result ||| (data[ar.index].toNat % 128) <<< shift % 2 ^ 64) _
          ⟨ar.index + 1⟩ (by dsimp only; omega) rfl
        rw [if_pos (by omega)]
        dsimp only at hnext
        constructor
        · intro h
          obtain ⟨v, hv⟩ := hnext.1 (by omega)
          refine ⟨v, hv.trans ?_⟩
          rw [← hi]
          congr 3
          omega
        · intro h
          exact hnext.2 (by omega)

theorem outcome_getVarint (hlength : 10 < data.length) :
    (tagSize data ≤ 10 → ∃ v, ((getVarint (⟨0⟩ : BlobReader 0 data.length)).run
      (source data)).outcome = .ok (v, ⟨tagSize data⟩)) ∧
    (¬ tagSize data ≤ 10 → ((getVarint (⟨0⟩ : BlobReader 0 data.length)).run
      (source data)).outcome = .error .undefined) := by
  have hloop := @outcome_varintLoop data 10 0 0 (data.findIdx fun b => b.toNat < 128) ⟨0⟩
    (by dsimp only; omega) rfl
  unfold tagSize
  constructor
  · intro htag
    obtain ⟨v, hv⟩ := hloop.1 (by omega)
    refine ⟨v, hv.trans ?_⟩
    rw [Nat.zero_add]
  · intro htag
    exact hloop.2 (by omega)

theorem outcome_skip {i n dst : ℕ} (hdst : word64 (i + n) = dst) (hle : dst ≤ data.length) :
    ((skip word64 n (⟨i⟩ : BlobReader 0 data.length)).run (source data)).outcome = .ok ⟨dst⟩ := by
  unfold skip
  dsimp only
  rw [hdst, Ask.outcome_bind_ok rfl, if_neg (not_lt.mpr hle)]
  exact Ask.outcome_bind_ok rfl

theorem outcome_getSpan {i n : ℕ} (hmax : data.length < 2 ^ 64) (h : i + n ≤ data.length) :
    ((getSpan word64 n (⟨i⟩ : BlobReader 0 data.length)).run (source data)).outcome =
      .ok (⟨i, n⟩, ⟨i + n⟩) := by
  have hword : word64 (i + n) = i + n := Nat.mod_eq_of_lt (by omega)
  unfold getSpan
  rw [Ask.outcome_bind_ok (outcome_skip hword h), Nat.zero_add]
  exact Ask.outcome_bind_ok rfl

theorem outcome_getSpan_short {i n : ℕ} (hmax : i + n < 2 ^ 64) (h : data.length < i + n) :
    ((getSpan word64 n (⟨i⟩ : BlobReader 0 data.length)).run (source data)).outcome =
      .error .outOfRange := by
  have hword : word64 (i + n) = i + n := Nat.mod_eq_of_lt hmax
  apply Ask.outcome_bind_error
  unfold skip
  dsimp only
  rw [hword, Ask.outcome_bind_ok rfl, if_pos h]
  rfl

theorem field_ok {α : Type} {ar : Read α} {a : α} (self : WalletAddress)
    (next : α → Option (Bool × WalletAddress)) (h : (ar.run (source data)).outcome = .ok a) :
    field data ar self next = next a := by
  rw [field, h]

theorem field_outOfRange {α : Type} {ar : Read α} (self : WalletAddress)
    (next : α → Option (Bool × WalletAddress))
    (h : (ar.run (source data)).outcome = .error .outOfRange) :
    field data ar self next = some (false, self) := by
  rw [field, h]

variable (keccak : Buffer → Hash)

/-- The last four bytes are the checksum of the others. -/
def Matches (data : Buffer) : Prop :=
  data.drop (data.length - 4) = (keccak (data.take (data.length - 4))).bytes.take 4

instance (data : Buffer) : Decidable (Matches keccak data) := inferInstanceAs (Decidable (_ = _))

variable {keccak}

/-- The keys need their place behind the tag, the checksum is read at the end wherever they lie. -/
theorem fields_eq (hmin : kMinDataSize ≤ data.length) (hmax : data.length < 256)
    (htag : tagSize data ≤ 10) (self : WalletAddress) :
    ∃ self', fields keccak data self =
      some (decide (tagSize data + 64 ≤ data.length ∧ Matches keccak data), self') := by
  have hmin : 69 ≤ data.length := hmin
  obtain ⟨v, hv⟩ := (outcome_getVarint (by omega)).1 htag
  unfold fields
  rw [field_ok _ _ hv]
  dsimp only [kKeySize]
  by_cases hspend : data.length < tagSize data + 32
  · rw [field_outOfRange _ _ (outcome_getSpan_short (by omega) hspend), decide_eq_false (by omega)]
    exact ⟨_, rfl⟩
  rw [field_ok _ _ (outcome_getSpan (by omega) (by omega))]
  dsimp only
  by_cases hview : data.length < tagSize data + 32 + 32
  · rw [field_outOfRange _ _ (outcome_getSpan_short (by omega) hview), decide_eq_false (by omega)]
    exact ⟨_, rfl⟩
  rw [field_ok _ _ (outcome_getSpan (by omega) (by omega))]
  dsimp only
  -- The length to skip wraps when fewer than four bytes are left, and so does the sum.
  have hback : word64 (tagSize data + 32 + 32 +
      word64 (2 ^ 64 + (data.length - (tagSize data + 32 + 32)) - 4)) = data.length - 4 := by
    unfold word64
    omega
  rw [field_ok _ _ (outcome_skip hback (by omega)),
    field_ok _ _ (outcome_getSpan (by omega) (by omega))]
  have hbytes : Span.bytes data ⟨data.length - 4, 4⟩ = data.drop (data.length - 4) := by
    apply List.take_of_length_le
    rw [List.length_drop]
    dsimp only
    omega
  have hfits : tagSize data + 64 ≤ data.length := by omega
  have hmatches : decide (tagSize data + 64 ≤ data.length ∧ Matches keccak data) =
      decide (Matches keccak data) := decide_eq_decide.mpr (and_iff_right hfits)
  rw [hmatches]
  dsimp only
  rw [hbytes]
  exact ⟨_, rfl⟩

theorem fields_undefined (hmin : kMinDataSize ≤ data.length) (htag : ¬ tagSize data ≤ 10)
    (self : WalletAddress) : fields keccak data self = none := by
  have hmin : 69 ≤ data.length := hmin
  rw [fields, field, (outcome_getVarint (by omega)).2 htag]

end Fields

section Contents

variable {keccak : Buffer → Hash} {data : Buffer}

theorem Content.tagSize_bytes (c : Content keccak) : tagSize c.bytes = c.more.length + 1 := by
  have hmore : c.more.findIdx (fun b => b.toNat < 128) = c.more.length := by
    refine List.findIdx_eq_length_of_false fun b hb => ?_
    exact decide_eq_false (c.more_continued b hb)
  have hbytes : c.bytes =
      c.more ++ (c.last :: (c.spendKey ++ (c.viewKey ++ (c.extra ++ c.checksum)))) := by
    simp only [Content.bytes, List.append_assoc, List.cons_append]
  rw [tagSize, hbytes, List.findIdx_append, hmore, if_neg (lt_irrefl _), List.findIdx_cons,
    decide_eq_true c.last_ends, cond_true, Nat.zero_add]

theorem Content.fits (c : Content keccak) : tagSize c.bytes + 68 ≤ c.bytes.length := by
  have hspend : c.spendKey.length = 32 := c.spendKey_length
  have hview : c.viewKey.length = 32 := c.viewKey_length
  have hchecksum := c.checksum_length
  rw [c.tagSize_bytes]
  simp only [Content.bytes, List.length_append, List.length_cons]
  omega

theorem Content.matches (c : Content keccak) : Matches keccak c.bytes := by
  have hlength : c.bytes.length - 4 =
      (c.more ++ c.last :: c.spendKey ++ c.viewKey ++ c.extra).length := by
    simp only [Content.bytes, List.length_append, c.checksum_length, Nat.add_sub_cancel]
  unfold Matches
  rw [hlength, Content.bytes, List.drop_left, List.take_left]
  exact c.checksum_eq

theorem exists_content (htag : tagSize data ≤ 10) (hfits : tagSize data + 68 ≤ data.length)
    (hmatches : Matches keccak data) : ∃ c : Content keccak, c.bytes = data := by
  obtain ⟨i, hi⟩ : ∃ i, data.findIdx (fun b => b.toNat < 128) = i := ⟨_, rfl⟩
  have hsize : tagSize data = i + 1 := by rw [tagSize, hi]
  rw [hsize] at htag hfits
  have hlt : i < data.length := by omega
  have hlast : data[i].toNat < 128 := by
    have hfound : data.findIdx (fun b => decide (b.toNat < 128)) < data.length := hi.trans_lt hlt
    have h := List.findIdx_getElem (w := hfound)
    simp only [hi] at h
    exact of_decide_eq_true h
  have hmore : ∀ b ∈ data.take i, ¬ b.toNat < 128 := by
    intro b hb
    obtain ⟨j, hj, rfl⟩ := List.mem_iff_getElem.mp hb
    rw [List.length_take] at hj
    have hbefore : j < data.findIdx fun b => b.toNat < 128 := by omega
    have h := List.not_of_lt_findIdx hbefore
    rw [List.getElem_take]
    exact of_decide_eq_false h
  have hbody : data.take (data.length - 4) =
      data.take i ++ data[i] :: (data.drop (i + 1)).take 32 ++ (data.drop (i + 33)).take 32 ++
      (data.drop (i + 65)).take (data.length - (i + 69)) := by
    have h65 : data.length - 4 = i + (1 + (32 + (32 + (data.length - (i + 69))))) := by omega
    rw [h65, List.take_add, Nat.add_comm 1, List.drop_eq_getElem_cons hlt, List.take_succ_cons,
      List.take_add, List.take_add, List.drop_drop, List.drop_drop, List.append_assoc,
      List.append_assoc, List.cons_append]
  refine ⟨⟨data.take i, data[i], (data.drop (i + 1)).take 32, (data.drop (i + 33)).take 32,
    (data.drop (i + 65)).take (data.length - (i + 69)), data.drop (data.length - 4),
      ?_, hmore, hlast,
    ?_, ?_, ?_, ?_⟩, ?_⟩
  · rw [List.length_take]
    omega
  · rw [List.length_take, List.length_drop, kKeySize]
    omega
  · rw [List.length_take, List.length_drop, kKeySize]
    omega
  · rw [List.length_drop]
    omega
  · rw [← hbody]
    exact hmatches
  · change _ ++ data.drop (data.length - 4) = data
    rw [← hbody, List.take_append_drop]

end Contents

section Prefixes

variable {p b s : Buffer}

theorem tfTag_splits (h : Splits p b) : ∃ tag, tfTag (p ++ b) = some (tag, b) := by
  cases h with
  | plain h =>
      rw [List.nil_append, tfTag, if_neg fun hc => h hc.2]
      exact ⟨0, rfl⟩
  | townforge hversion hnet =>
      rw [tfTag, if_pos ⟨by rw [List.length_append]; exact Nat.le_add_right _ _, rfl⟩]
      simp only [List.mem_cons, List.not_mem_nil, or_false] at hversion hnet
      rcases hversion with rfl | rfl
      · rcases hnet with rfl | rfl | rfl <;> exact ⟨_, rfl⟩
      · rcases hnet with rfl | rfl | rfl <;> exact ⟨_, rfl⟩

theorem splits_of_tfTag {tag : ℕ} (h : tfTag s = some (tag, b)) (hmin : kMinSize ≤ b.length) :
    ∃ p, s = p ++ b ∧ Splits p b := by
  unfold tfTag at h
  split at h
  · rename_i hc
    obtain ⟨hlength, htf⟩ := hc
    obtain ⟨version, hversion, h⟩ := Option.bind_eq_some_iff.mp h
    obtain ⟨net, hnet, h⟩ := Option.map_eq_some_iff.mp h
    obtain ⟨-, rfl⟩ := Prod.mk.inj h
    rcases s with - | ⟨c, - | ⟨d, - | ⟨v, - | ⟨n, rest⟩⟩⟩⟩
    iterate 4 exact absurd hlength (by simp)
    · simp only [List.take_succ_cons, List.take_zero, List.cons.injEq, and_true] at htf
      obtain ⟨rfl, rfl⟩ := htf
      refine ⟨[char 'T', char 'F', v, n], rfl, .townforge ?_ ?_⟩
      · have hv : v = char '1' ∨ v = char '2' := by
          by_contra hne
          simp only [List.getElem?_cons_succ, List.getElem?_cons_zero, Option.some.injEq]
            at hversion
          rw [if_neg fun h => hne (.inl h), if_neg fun h => hne (.inr h)] at hversion
          cases hversion
        simp only [List.mem_cons, List.not_mem_nil, or_false, hv]
      · have hn : n = char 'M' ∨ n = char 'T' ∨ n = char 'S' := by
          by_contra hne
          simp only [List.getElem?_cons_succ, List.getElem?_cons_zero, Option.some.injEq] at hnet
          rw [if_neg fun h => hne (.inl h), if_neg fun h => hne (.inr (.inl h)),
            if_neg fun h => hne (.inr (.inr h))] at hnet
          cases hnet
        simp only [List.mem_cons, List.not_mem_nil, or_false, hn]
  · rename_i hc
    obtain ⟨-, rfl⟩ := Prod.mk.inj (Option.some.inj h)
    have hlength : 4 ≤ s.length := le_trans (by decide) hmin
    exact ⟨[], rfl, .plain fun htf => hc ⟨hlength, htf⟩⟩

end Prefixes

section Decoding

variable {keccak : Buffer → Hash} {self : WalletAddress} {s data data' : Buffer}
  {excess excess' : ℕ}

theorem Reads.blocks {p b : Buffer} (h : Reads (p ++ b) data excess) (hsplits : Splits p b) :
    ∃ n k, Blocks b data excess n k := by
  obtain ⟨p', b', n, k, heq, hsplits', hb⟩ := h
  obtain ⟨tag, htag⟩ := tfTag_splits hsplits
  obtain ⟨tag', htag'⟩ := tfTag_splits hsplits'
  rw [heq, htag'] at htag
  obtain ⟨-, rfl⟩ := Prod.mk.inj (Option.some.inj htag)
  exact ⟨n, k, hb⟩

theorem Reads.unique (h : Reads s data excess) (h' : Reads s data' excess') :
    data = data' ∧ excess = excess' := by
  obtain ⟨p, b, n, k, rfl, hsplits, hb⟩ := h
  obtain ⟨n', k', hb'⟩ := h'.blocks hsplits
  have hlength := hb.length
  have hlength' := hb'.length
  have hsize := blockSize_le hb.short
  have hsize' := blockSize_le hb'.short
  obtain rfl : n = n' := by omega
  have hk := (idxOf?_blockSizes (r := blockSize k) (by omega)).mpr ⟨hb.short, rfl⟩
  have hk' := (idxOf?_blockSizes (r := blockSize k) (by omega)).mpr
    ⟨hb'.short, (by omega : blockSize k' = blockSize k)⟩
  obtain rfl : k = k' := Option.some.inj (hk.symm.trans hk')
  exact ⟨hb.data_eq.symm.trans hb'.data_eq, hb.over_eq.symm.trans hb'.over_eq⟩

theorem Reads.length_bounds (h : Reads s data excess) :
    kMinDataSize ≤ data.length ∧ data.length < 256 := by
  obtain ⟨p, b, n, k, -, -, hb⟩ := h
  exact hb.length_bounds

/-- The canonical texts are the readings of which nothing is left out and whose fields do not
overlap. -/
theorem canonical_iff : Canonical keccak s ↔
    ∃ data, Reads s data 0 ∧ tagSize data ≤ 10 ∧ tagSize data + 68 ≤ data.length ∧
      Matches keccak data := by
  constructor
  · rintro ⟨p, b, rfl, hsplits, hmin, hmax, c, rfl⟩
    have hvalid : cryptonote.bytes.Valid c.bytes := fun a _ => UInt8.toNat_lt a
    have hwritten := BlockCode.written_encode hvalid
    have hmore := c.more_length
    refine ⟨c.bytes, ⟨p, _, _, _, rfl, hsplits, hmin, hmax,
      Nat.mod_lt _ (by decide), hwritten.length, hwritten.valid, hwritten.range, hwritten.read,
      hwritten.dropped⟩, ?_, c.fits, c.matches⟩
    rw [c.tagSize_bytes]
    omega
  · rintro ⟨data, ⟨p, b, n, k, rfl, hsplits, hb⟩, htag, hfits, hmatches⟩
    obtain ⟨c, hc⟩ := exists_content htag hfits hmatches
    refine ⟨p, b, rfl, hsplits, hb.min, hb.max, c, ?_⟩
    rw [hc, ← hb.data_eq]
    exact (BlockCode.encode_read hb.short hb.valid hb.length hb.range hb.over_eq).symm

variable (keccak) in
/-- The keys have their place and the checksum is right. -/
def Passes (data : Buffer) : Prop := tagSize data + 64 ≤ data.length ∧ Matches keccak data

instance (data : Buffer) : Decidable (Passes keccak data) := inferInstanceAs (Decidable (_ ∧ _))

theorem decode_of_reads (h : Reads s data excess) (htag : tagSize data ≤ 10)
    (self : WalletAddress) :
    ∃ self', decode keccak self s = some (decide (Passes keccak data), self') ∧
      (¬ Passes keccak data → self'.tag = 0) := by
  obtain ⟨hmin, hmax⟩ := h.length_bounds
  obtain ⟨p, b, n, k, rfl, hsplits, hb⟩ := h
  obtain ⟨tag, hsplit⟩ := tfTag_splits hsplits
  obtain ⟨self', hfields⟩ : ∃ self', fields keccak data self = some (_, self') :=
    fields_eq hmin hmax htag self
  have hdecode : decode keccak self (p ++ b) = (fields keccak data self).map fun r =>
      if r.1 then (true, { r.2 with data := b, tag := if tag = 0 then r.2.tag else tag })
      else (false, { r.2 with tag := 0 }) := by
    rw [decode, hsplit]
    dsimp only
    rw [blocks_eq_some.mpr ⟨excess, n, k, hb⟩]
  rw [hdecode, hfields, Option.map_some]
  by_cases hpasses : Passes keccak data
  · rw [decide_eq_true hpasses, decide_eq_true (show _ ∧ _ from hpasses)]
    exact ⟨_, rfl, fun hc => absurd hpasses hc⟩
  · rw [decide_eq_false hpasses, decide_eq_false (show ¬ (_ ∧ _) from hpasses)]
    exact ⟨_, rfl, fun _ => rfl⟩

theorem decode_undefined (h : Reads s data excess) (htag : ¬ tagSize data ≤ 10)
    (self : WalletAddress) : decode keccak self s = none := by
  obtain ⟨hmin, hmax⟩ := h.length_bounds
  obtain ⟨p, b, n, k, rfl, hsplits, hb⟩ := h
  obtain ⟨tag, hsplit⟩ := tfTag_splits hsplits
  rw [decode, hsplit]
  dsimp only
  rw [blocks_eq_some.mpr ⟨excess, n, k, hb⟩]
  dsimp only
  rw [fields_undefined hmin htag, Option.map_none]

theorem decode_unread (h : ∀ data excess, ¬ Reads s data excess) (self : WalletAddress) :
    decode keccak self s = some (false, self) := by
  unfold decode
  cases hsplit : tfTag s with
  | none => rfl
  | some found =>
      obtain ⟨tag, b⟩ := found
      cases hblocks : blocks b with
      | none => dsimp only; rw [hblocks]
      | some data =>
          obtain ⟨excess, n, k, hb⟩ := blocks_eq_some.mp hblocks
          obtain ⟨p, rfl, hsplits⟩ := splits_of_tfTag hsplit hb.min
          exact absurd ⟨p, b, n, k, rfl, hsplits, hb⟩ (h data excess)

end Decoding

section Exactness

variable (keccak : Buffer → Hash)

/-- The text is accepted if it is canonical, and otherwise the object is left invalid. -/
def DecodesExactly (self : WalletAddress) (s : Buffer) : Prop :=
  ∃ accepted self', decode keccak self s = some (accepted, self') ∧
    (accepted = true ↔ Canonical keccak s) ∧ (accepted = false → ¬ self'.isValid)

/-- The object was invalid or the text has a reading; its tag fits in 64 bits; and where the
checksum is right, the last block has no more than its bytes and the checksum lies behind the
keys. -/
structure Clear (before : WalletAddress) (s : Buffer) : Prop where
  unread : before.isValid → ∃ data excess, Reads s data excess
  varint : ∀ data excess, Reads s data excess → tagSize data ≤ 10
  exact : ∀ data excess, Reads s data excess → Passes keccak data →
    excess = 0 ∧ tagSize data + 68 ≤ data.length

def Accepts (s : Buffer) : Prop := ∃ self self', decode keccak self s = some (true, self')

/-- No other text with the same prefix is accepted with the same bytes. -/
def NoTwin (s : Buffer) : Prop :=
  ∀ p b b', s = p ++ b → Splits p b → Splits p b' → Accepts keccak (p ++ b) →
    Accepts keccak (p ++ b') → blocks b' = blocks b → b' = b

/-- A text that passes has no shorter last block. -/
def WholeBlocks (s : Buffer) : Prop :=
  ∀ p b, s = p ++ b → Splits p b → ∀ data excess, Reads s data excess → tagSize data ≤ 10 →
    Passes keccak data → 11 ∣ b.length

variable {keccak} {self : WalletAddress} {s : Buffer}

theorem decodesExactly_iff : DecodesExactly keccak self s ↔ Clear keccak self s := by
  by_cases hread : ∃ data excess, Reads s data excess
  · obtain ⟨data, excess, hreads⟩ := hread
    by_cases htag : tagSize data ≤ 10
    · obtain ⟨self', hdecode, hreset⟩ : ∃ self', decode keccak self s = some (_, self') ∧ _ :=
        decode_of_reads hreads htag self
      have hexact : DecodesExactly keccak self s ↔ (Passes keccak data ↔ Canonical keccak s) := by
        constructor
        · rintro ⟨accepted, found, hfound, haccepted, -⟩
          rw [hdecode] at hfound
          obtain ⟨rfl, -⟩ := Prod.mk.inj (Option.some.inj hfound)
          rwa [decide_eq_true_iff] at haccepted
        · intro h
          refine ⟨_, self', hdecode, ?_, ?_⟩
          · rwa [decide_eq_true_iff]
          · intro hfalse hvalid
            have hzero := hreset (of_decide_eq_false hfalse)
            have hpos := hvalid.1
            omega
      have hcanonical : Canonical keccak s ↔
          Passes keccak data ∧ excess = 0 ∧ tagSize data + 68 ≤ data.length := by
        rw [canonical_iff]
        constructor
        · rintro ⟨data', hreads', -, hfits, hmatches⟩
          obtain ⟨rfl, rfl⟩ := hreads.unique hreads'
          exact ⟨⟨by omega, hmatches⟩, rfl, hfits⟩
        · rintro ⟨hpasses, rfl, hfits⟩
          exact ⟨data, hreads, htag, hfits, hpasses.2⟩
      rw [hexact, hcanonical]
      constructor
      · intro h
        refine ⟨fun _ => ⟨data, excess, hreads⟩, fun data' excess' hreads' => ?_,
          fun data' excess' hreads' hpasses => ?_⟩
        · obtain ⟨rfl, -⟩ := hreads.unique hreads'
          exact htag
        · obtain ⟨rfl, rfl⟩ := hreads.unique hreads'
          exact (h.mp hpasses).2
      · intro h
        exact ⟨fun hpasses => ⟨hpasses, h.exact data excess hreads hpasses⟩, fun h => h.1⟩
    · have hnone : decode keccak self s = none := decode_undefined hreads htag self
      constructor
      · rintro ⟨accepted, found, hfound, -⟩
        rw [hnone] at hfound
        cases hfound
      · intro h
        exact absurd (h.varint data excess hreads) htag
  · have hunread : ∀ data excess, ¬ Reads s data excess :=
      fun data excess h => hread ⟨data, excess, h⟩
    have hdecode : decode keccak self s = some (false, self) := decode_unread hunread self
    constructor
    · rintro ⟨accepted, found, hfound, -, hinvalid⟩
      rw [hdecode] at hfound
      obtain ⟨rfl, rfl⟩ := Prod.mk.inj (Option.some.inj hfound)
      exact ⟨fun hvalid => absurd hvalid (hinvalid rfl),
        fun data excess h => absurd h (hunread data excess),
        fun data excess h => absurd h (hunread data excess)⟩
    · intro h
      refine ⟨false, self, hdecode, ⟨fun hfalse => (nomatch hfalse), fun hcanonical => ?_⟩,
        fun _ hvalid => hread (h.unread hvalid)⟩
      obtain ⟨data, hreads, -⟩ := canonical_iff.mp hcanonical
      exact absurd hreads (hunread data 0)

theorem accepts_iff : Accepts keccak s ↔
    ∃ data excess, Reads s data excess ∧ tagSize data ≤ 10 ∧ Passes keccak data := by
  constructor
  · rintro ⟨self, found, hfound⟩
    by_cases hread : ∃ data excess, Reads s data excess
    · obtain ⟨data, excess, hreads⟩ := hread
      by_cases htag : tagSize data ≤ 10
      · obtain ⟨self', hdecode, -⟩ := decode_of_reads hreads htag self
        rw [hfound] at hdecode
        obtain ⟨htrue, -⟩ := Prod.mk.inj (Option.some.inj hdecode)
        exact ⟨data, excess, hreads, htag, of_decide_eq_true htrue.symm⟩
      · rw [decode_undefined hreads htag] at hfound
        cases hfound
    · rw [decode_unread fun data excess h => hread ⟨data, excess, h⟩] at hfound
      cases hfound
  · rintro ⟨data, excess, hreads, htag, hpasses⟩
    obtain ⟨self', hdecode, -⟩ : ∃ self', decode keccak {} s = some (_, self') ∧ _ :=
      decode_of_reads hreads htag {}
    rw [decide_eq_true hpasses] at hdecode
    exact ⟨{}, self', hdecode⟩

/-- Texts of full blocks that are read as the same are the same. -/
theorem Blocks.eq_of_whole {b b' data : Buffer} {excess excess' n n' k k' : ℕ}
    (h : Blocks b data excess n k) (h' : Blocks b' data excess' n' k') (hwhole : 11 ∣ b.length) :
    b' = b := by
  have hlength := h.length
  have hsize := blockSize_le h.short
  have hshort := h.short
  have hshort' := h'.short
  have hdata := h.length_data
  have hdata' := h'.length_data
  obtain rfl : n = n' := by omega
  obtain rfl : k = k' := by omega
  have hzero : blockSize k = 0 := by omega
  have hdropped : ∀ c : Buffer, c.length = n * 11 + blockSize k →
      cryptonote.lastDropped n k c = 0 := by
    intro c hc
    have hnil : c.drop (n * 11) = [] := by
      rw [List.drop_eq_nil_iff]
      omega
    rw [BlockCode.lastDropped_eq]
    change cryptonote.dropped k (c.drop (n * 11)) = 0
    rw [hnil]
    exact Nat.zero_div _
  exact BlockCode.read_inj h'.valid h.valid h'.length h.length h'.range h.range
    (h'.data_eq.trans h.data_eq.symm) ((hdropped b' h'.length).trans (hdropped b h.length).symm)

/-- A shorter last block has room for more than its bytes. -/
theorem Blocks.exists_twin {b data : Buffer} {excess n k : ℕ} (h : Blocks b data excess n k)
    (hpart : ¬ 11 ∣ b.length) :
    ∃ b' excess', b' ≠ b ∧ Blocks b' data excess' n k ∧ b'.take 2 = b.take 2 := by
  have hmin : 95 ≤ b.length := h.min
  have hlength := h.length
  have hsize := blockSize_le h.short
  have hshort := h.short
  have hk : 0 < k := by
    rcases Nat.eq_zero_or_pos k with rfl | hk
    · exact absurd ⟨n, hlength.trans (Nat.mul_comm n 11)⟩ hpart
    · exact hk
  have hroom : 2 * 256 ^ k ≤ 58 ^ blockSize k := by
    interval_cases k <;> decide +kernel
  obtain ⟨b', hne, hvalid, hsame, hrange, hread, htake⟩ :=
    BlockCode.exists_twin (C := cryptonote) hroom h.valid hlength h.range
  refine ⟨b', _, hne, ⟨hsame ▸ h.min, hsame ▸ h.max, hshort, hsame.trans hlength, hvalid, hrange,
    hread.trans h.data_eq, rfl⟩, ?_⟩
  have htwo : ∀ c : Buffer, c.take 2 = (c.take (n * 11)).take 2 := by
    intro c
    rw [List.take_take, min_eq_left (by omega)]
  rw [htwo b', htwo b]
  exact congrArg (List.take 2) htake

theorem noTwin_iff : NoTwin keccak s ↔ WholeBlocks keccak s := by
  constructor
  · rintro h p b rfl hsplits data excess hreads htag hpasses
    by_contra hpart
    have haccepts := accepts_iff.mpr ⟨data, excess, hreads, htag, hpasses⟩
    obtain ⟨n, k, hb⟩ := hreads.blocks hsplits
    obtain ⟨b', excess', hne, hb', htwo⟩ := hb.exists_twin hpart
    have hsplits' : Splits p b' := by
      cases hsplits with
      | plain hplain => exact .plain (htwo ▸ hplain)
      | townforge hversion hnet => exact .townforge hversion hnet
    have haccepts' := accepts_iff.mpr
      ⟨data, excess', ⟨p, b', n, k, rfl, hsplits', hb'⟩, htag, hpasses⟩
    have hsame : WalletAddress.blocks b' = WalletAddress.blocks b :=
      (blocks_eq_some.mpr ⟨excess', n, k, hb'⟩).trans (blocks_eq_some.mpr ⟨excess, n, k, hb⟩).symm
    exact hne (h p b b' rfl hsplits hsplits' haccepts haccepts' hsame)
  · rintro h p b b' rfl hsplits hsplits' haccepts haccepts' hsame
    obtain ⟨data, excess, hreads, htag, hpasses⟩ := accepts_iff.mp haccepts
    have hwhole := h p b rfl hsplits data excess hreads htag hpasses
    obtain ⟨n, k, hb⟩ := hreads.blocks hsplits
    rw [blocks_eq_some.mpr ⟨excess, n, k, hb⟩] at hsame
    obtain ⟨excess', n', k', hb'⟩ := blocks_eq_some.mp hsame
    exact hb.eq_of_whole hb' hwhole

/-- A call does as it should exactly on clear input, and a text has no twin exactly when it ends
with a full block. -/
theorem decode_exact (keccak : Buffer → Hash) :
    (∀ before s, DecodesExactly keccak before s ↔ Clear keccak before s) ∧
      ∀ s, NoTwin keccak s ↔ WholeBlocks keccak s :=
  ⟨fun _ _ => decodesExactly_iff, fun _ => noTwin_iff⟩

/-- The address that the manual donates to, and the hash of its content. -/
def donateAddress : Buffer :=
  ("48edfHu7V9Z84YzzMa6fUueoELZ9ZRXq9VetWzYGzKt52XU5xvqgzYnDK9URnRoJMk1j8nLwEVsaSWJ4fhdUyZij" ++
    "BGUicoD").toList.map char

def donateHash : Hash :=
  ⟨[0, 59, 202, 92, 69, 194, 176, 169, 233, 244, 170, 134, 124, 70, 255,
    107, 167, 7, 185, 235, 81, 5, 196, 4, 72, 162, 254, 222, 117, 25, 8, 225], rfl⟩

/-- After an empty text the object still holds the address it had before. -/
theorem address_kept : ∃ before,
    decode (fun _ => donateHash) {} donateAddress = some (true, before) ∧
      ¬ DecodesExactly (fun _ => donateHash) before [] := by
  obtain ⟨before, hbefore, hvalid⟩ : ∃ before,
      decode (fun _ => donateHash) {} donateAddress = some (true, before) ∧ before.isValid := by
    have hdecode : (decode (fun _ => donateHash) {} donateAddress).any
        (fun r => r.1 && decide r.2.isValid) = true := by decide +kernel
    obtain ⟨⟨accepted, before⟩, hbefore, hboth⟩ := (Option.any_eq_true _ _).mp hdecode
    obtain ⟨haccepted, hvalid⟩ := (Bool.and_eq_true _ _).mp hboth
    obtain rfl : accepted = true := haccepted
    exact ⟨before, hbefore, of_decide_eq_true hvalid⟩
  refine ⟨before, hbefore, ?_⟩
  rintro ⟨accepted, after, hafter, -, hinvalid⟩
  obtain ⟨rfl, rfl⟩ := Prod.mk.inj (Option.some.inj hafter)
  exact hinvalid rfl hvalid

end Exactness

end WalletAddress

end XmrigProxy
