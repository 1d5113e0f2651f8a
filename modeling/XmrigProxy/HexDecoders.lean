import XmrigProxy.Library.Utf8
import XmrigProxy.Miner

/-! Two decoders of hexadecimal text: the one that checks what miners send, and the one that builds
the keys of the share cache. C strings are the bytes before their end. -/
namespace XmrigProxy

namespace Cvt

def cNum (c : UInt8) : UInt8 := c ^^^ 48

/-- All ones for a decimal digit, and zero otherwise. -/
def cNum0 (c : UInt8) : UInt8 := (((cNum c).toUInt32 - 10) >>> 8).toUInt8

def cAlpha (c : UInt8) : UInt8 := ((c.toUInt32 &&& ~~~32) - 55).toUInt8

/-- All ones for a letter that is a digit, and zero otherwise. -/
def cAlpha0 (c : UInt8) : UInt8 :=
  ((((cAlpha c).toUInt32 - 10) ^^^ ((cAlpha c).toUInt32 - 16)) >>> 8).toUInt8

def cVal (c : UInt8) : UInt8 := (cNum0 c &&& cNum c) ||| (cAlpha0 c &&& cAlpha c)

/-- The variables of the loop, with the bytes that are written. -/
structure Hex2Bin where
  bin : List UInt8 := []
  hexPos : ℕ := 0
  ret : ℤ := 0
  cAcc : UInt8 := 0
  state : UInt8 := 0
  deriving DecidableEq, Repr

def hex2binLoop (binMaxlen : ℕ) : List UInt8 → Hex2Bin → Hex2Bin
  | [], s => s
  | c :: hex, s =>
      if cNum0 c ||| cAlpha0 c = 0 then s
      else if binMaxlen ≤ s.bin.length then { s with ret := -1 }
      else
        let hexPos := s.hexPos + 1
        if s.state = 0 then
          hex2binLoop binMaxlen hex
            { s with
              hexPos
              cAcc := cVal c * 16
              state := ~~~s.state }
        else
          hex2binLoop binMaxlen hex
            { s with
              bin := s.bin ++ [s.cAcc ||| cVal c]
              hexPos
              state := ~~~s.state }

/-- Nothing is ignored, and the caller asks neither for the length nor for the end. -/
def hex2bin (binMaxlen : ℕ) (hex : List UInt8) : ℤ × List UInt8 :=
  let s := hex2binLoop binMaxlen hex {}
  let s := if s.state ≠ 0 then
      { s with
        hexPos := s.hexPos - 1
        ret := -1 }
    else s
  let s := if s.hexPos ≠ hex.length then { s with ret := -1 } else s
  (s.ret, s.bin)

def fromHex (binMaxlen : ℕ) (hex : List UInt8) : Option (List UInt8) :=
  if hex = [] then none
  else if (hex2bin binMaxlen hex).1 = 0 then some (hex2bin binMaxlen hex).2 else none

end Cvt

namespace GlobalShareCache

def hexValue (c : UInt8) : ℤ :=
  if 48 ≤ c ∧ c ≤ 57 then c.toNat - 48
  else if 97 ≤ c ∧ c ≤ 102 then c.toNat - 97 + 10
  else if 65 ≤ c ∧ c ≤ 70 then c.toNat - 65 + 10
  else -1

/-- The loop takes two digits at a time. -/
def hexPairs : List UInt8 → Option (List UInt8)
  | [] => some []
  | [_] => none
  | c :: d :: hex =>
      if hexValue c < 0 ∨ hexValue d < 0 then none
      else (hexPairs hex).map (UInt8.ofNat ((hexValue c).toNat <<< 4 ||| (hexValue d).toNat) :: ·)

def appendHex (out hex : List UInt8) : Option (List UInt8) :=
  if hex.length % 2 ≠ 0 then none else (hexPairs hex).map (out ++ ·)

/-- What `makeKey` does with the bytes of its texts. -/
def makeKeyOfBytes (entropyHex resultHash : List UInt8) : Option Key :=
  if entropyHex.length = 32 ∧ resultHash.length = 64 then
    (appendHex [] entropyHex).bind fun key => appendHex key resultHash
  else none

end GlobalShareCache

namespace Miner

/-- What a nonce or a result is checked for, on the bytes of its text. -/
def validEncoding (size : ℕ) (text : List UInt8) : Bool :=
  text.length = size * 2 && (Cvt.fromHex size text).isSome

end Miner

namespace GlobalShareCache

open Cvt

section Digits

theorem digit_table : ∀ n < 256, (cNum0 (UInt8.ofNat n) ||| cAlpha0 (UInt8.ofNat n) = 0 ↔
      hexValue (UInt8.ofNat n) < 0) ∧
    (0 ≤ hexValue (UInt8.ofNat n) → hexValue (UInt8.ofNat n) < 16 ∧
      cVal (UInt8.ofNat n) = UInt8.ofNat (hexValue (UInt8.ofNat n)).toNat) := by decide +kernel

/-- The masks tell the digits from the other bytes. -/
theorem mask_eq_zero_iff (c : UInt8) : cNum0 c ||| cAlpha0 c = 0 ↔ hexValue c < 0 := by
  have h := (digit_table c.toNat c.toNat_lt).1
  rwa [UInt8.ofNat_toNat] at h

theorem cVal_eq {c : UInt8} (h : 0 ≤ hexValue c) :
    hexValue c < 16 ∧ cVal c = UInt8.ofNat (hexValue c).toNat := by
  have hdigit := (digit_table c.toNat c.toNat_lt).2
  rw [UInt8.ofNat_toNat] at hdigit
  exact hdigit h

theorem nibbles : ∀ high < 16, ∀ low < 16, UInt8.ofNat high * (16 : UInt8) ||| UInt8.ofNat low =
    UInt8.ofNat (high <<< 4 ||| low) := by decide +kernel

/-- Both decoders put two digits together in the same way. -/
theorem byte_eq {c d : UInt8} (hc : 0 ≤ hexValue c) (hd : 0 ≤ hexValue d) :
    cVal c * (16 : UInt8) ||| cVal d =
      UInt8.ofNat ((hexValue c).toNat <<< 4 ||| (hexValue d).toNat) := by
  obtain ⟨hhigh, hcVal⟩ := cVal_eq hc
  obtain ⟨hlow, hdVal⟩ := cVal_eq hd
  rw [hcVal, hdVal]
  exact nibbles _ (by omega) _ (by omega)

end Digits

section Pairs

theorem hexPairs_cons (c d : UInt8) (hex : List UInt8) : hexPairs (c :: d :: hex) =
    if hexValue c < 0 ∨ hexValue d < 0 then none
    else (hexPairs hex).map
      (UInt8.ofNat ((hexValue c).toNat <<< 4 ||| (hexValue d).toNat) :: ·) := rfl

theorem hexPairs_length {hex bytes : List UInt8} (h : hexPairs hex = some bytes) :
    hex.length = 2 * bytes.length := by
  induction hex using hexPairs.induct generalizing bytes with
  | case1 =>
      obtain rfl := Option.some.inj h
      rfl
  | case2 => cases h
  | case3 c d hex hforeign =>
      rw [hexPairs_cons, if_pos hforeign] at h
      cases h
  | case4 c d hex hdigits ih =>
      rw [hexPairs_cons, if_neg hdigits] at h
      obtain ⟨bytes, hbytes, rfl⟩ := Option.map_eq_some_iff.mp h
      rw [List.length_cons, List.length_cons, List.length_cons, ih hbytes]
      omega

/-- A byte that is no digit ends the loop where it stands. -/
theorem hex2binLoop_foreign {binMaxlen : ℕ} {c : UInt8} (hc : hexValue c < 0) (hex : List UInt8)
    (s : Hex2Bin) : hex2binLoop binMaxlen (c :: hex) s = s := by
  rw [hex2binLoop, if_pos ((mask_eq_zero_iff c).mpr hc)]

theorem hex2binLoop_high {binMaxlen : ℕ} {c : UInt8} (hc : 0 ≤ hexValue c) (hex : List UInt8)
    {s : Hex2Bin} (hroom : s.bin.length < binMaxlen) (hstate : s.state = 0) :
    hex2binLoop binMaxlen (c :: hex) s = hex2binLoop binMaxlen hex
      { s with
        hexPos := s.hexPos + 1
        cAcc := cVal c * 16
        state := 255 } := by
  rw [hex2binLoop, if_neg fun h => not_lt.mpr hc ((mask_eq_zero_iff c).mp h),
    if_neg (Nat.not_le_of_lt hroom)]
  dsimp only
  rw [if_pos hstate, hstate]
  rfl

theorem hex2binLoop_low {binMaxlen : ℕ} {c : UInt8} (hc : 0 ≤ hexValue c) (hex : List UInt8)
    {s : Hex2Bin} (hroom : s.bin.length < binMaxlen) (hstate : s.state = 255) :
    hex2binLoop binMaxlen (c :: hex) s = hex2binLoop binMaxlen hex
      { s with
        bin := s.bin ++ [s.cAcc ||| cVal c]
        hexPos := s.hexPos + 1
        state := 0 } := by
  have hodd : ¬ s.state = 0 := by
    rw [hstate]
    decide
  rw [hex2binLoop, if_neg fun h => not_lt.mpr hc ((mask_eq_zero_iff c).mp h),
    if_neg (Nat.not_le_of_lt hroom)]
  dsimp only
  rw [if_neg hodd, hstate]
  rfl

/-- From one byte to the next, the loop does what the other decoder does; where that one refuses,
this one stops short of the end. -/
theorem hex2binLoop_eq (binMaxlen : ℕ) (hex : List UInt8) {s : Hex2Bin} (heven : hex.length % 2 = 0)
    (hroom : s.bin.length + hex.length / 2 ≤ binMaxlen) (hstate : s.state = 0) :
    let after := hex2binLoop binMaxlen hex s
    match hexPairs hex with
    | some bytes => after.bin = s.bin ++ bytes ∧ after.hexPos = s.hexPos + hex.length ∧
        after.ret = s.ret ∧ after.state = 0
    | none => after.hexPos < s.hexPos + hex.length := by
  induction hex using hexPairs.induct generalizing s with
  | case1 => exact ⟨(List.append_nil _).symm, rfl, rfl, hstate⟩
  | case2 c => exact absurd heven (Nat.one_ne_zero)
  | case3 c d hex hforeign =>
      intro after
      rw [hexPairs_cons, if_pos hforeign]
      dsimp only
      rw [List.length_cons, List.length_cons] at hroom ⊢
      by_cases hc : hexValue c < 0
      · have hafter : after = s := hex2binLoop_foreign hc _ s
        rw [hafter]
        omega
      · have hd := hforeign.resolve_left hc
        have hafter := hex2binLoop_high (not_lt.mp hc) (d :: hex)
          (show s.bin.length < binMaxlen by omega) hstate
        rw [hex2binLoop_foreign hd] at hafter
        have hhexPos : after.hexPos = s.hexPos + 1 := congrArg Hex2Bin.hexPos hafter
        omega
  | case4 c d hex hdigits ih =>
      intro after
      obtain ⟨hc, hd⟩ := not_or.mp hdigits
      rw [not_lt] at hc hd
      rw [List.length_cons, List.length_cons] at heven hroom
      have hbound : s.bin.length < binMaxlen := by omega
      have hafter := (hex2binLoop_high hc (d :: hex) hbound hstate).trans
        (hex2binLoop_low hd hex (by exact hbound) rfl)
      have hlength : (s.bin ++ [cVal c * (16 : UInt8) ||| cVal d]).length = s.bin.length + 1 :=
        List.length_append
      have hrest := @ih { s with
        bin := s.bin ++ [cVal c * (16 : UInt8) ||| cVal d]
        hexPos := s.hexPos + 1 + 1
        cAcc := cVal c * 16
        state := 0 } (by omega) (by dsimp only; omega) rfl
      rw [hexPairs_cons, if_neg hdigits, List.length_cons, List.length_cons]
      cases hpairs : hexPairs hex with
      | none =>
          rw [hpairs] at hrest
          dsimp only at hrest
          rw [Option.map_none, show after = _ from hafter]
          dsimp only
          omega
      | some bytes =>
          rw [hpairs] at hrest
          dsimp only at hrest
          obtain ⟨hbin, hhexPos, hret, hafterState⟩ := hrest
          rw [Option.map_some]
          dsimp only
          rw [show after = _ from hafter]
          refine ⟨?_, ?_, hret, hafterState⟩
          · rw [hbin, byte_eq hc hd, List.append_assoc, List.singleton_append]
          · rw [hhexPos]
            omega

end Pairs

section Decoders

variable {size : ℕ} {hex entropyHex resultHash resultHash' : List UInt8}

theorem hex2bin_of_short (h : (hex2binLoop size hex {}).hexPos < hex.length) :
    (hex2bin size hex).1 = -1 := by
  unfold hex2bin
  dsimp only
  generalize hex2binLoop size hex {} = after at h
  have hshort : (if after.state ≠ 0 then
      { after with
        hexPos := after.hexPos - 1
        ret := -1 }
      else after).hexPos ≠ hex.length := by
    split
    · dsimp only
      omega
    · omega
  rw [if_pos hshort]

theorem hex2bin_of_end (hend : (hex2binLoop size hex {}).hexPos = hex.length)
    (hstate : (hex2binLoop size hex {}).state = 0) :
    hex2bin size hex = ((hex2binLoop size hex {}).ret, (hex2binLoop size hex {}).bin) := by
  unfold hex2bin
  dsimp only
  rw [if_neg (not_not.mpr hstate), if_neg (not_not.mpr hend)]

/-- On every text of the length that is asked for, the decoders accept the same texts, with the same
bytes. -/
theorem fromHex_eq (hsize : 0 < size) (hlength : hex.length = size * 2) :
    fromHex size hex = hexPairs hex := by
  have hsome : hex ≠ [] := by
    rintro rfl
    rw [List.length_nil] at hlength
    omega
  have hloop := hex2binLoop_eq size hex (s := {}) (by omega)
    (by dsimp only [List.length_nil]; omega) rfl
  dsimp only at hloop
  rw [Nat.zero_add] at hloop
  rw [fromHex, if_neg hsome]
  cases hpairs : hexPairs hex with
  | none =>
      rw [hpairs] at hloop
      rw [hex2bin_of_short hloop]
      rfl
  | some bytes =>
      rw [hpairs] at hloop
      obtain ⟨hbin, hend, hret, hstate⟩ := hloop
      rw [hex2bin_of_end hend hstate, if_pos hret, hbin, List.nil_append]

theorem appendHex_eq (out : List UInt8) (hsize : 0 < size) (hlength : hex.length = size * 2) :
    appendHex out hex = (fromHex size hex).map (out ++ ·) := by
  have heven : ¬ hex.length % 2 ≠ 0 := by omega
  rw [appendHex, if_neg heven, fromHex_eq hsize hlength]

theorem validEncoding_iff : Miner.validEncoding size hex = true ↔
    hex.length = size * 2 ∧ ∃ bytes, fromHex size hex = some bytes := by
  rw [Miner.validEncoding, Bool.and_eq_true, decide_eq_true_eq, Option.isSome_iff_exists]

/-- The key is what both texts decode to, one after the other. -/
theorem makeKeyOfBytes_eq (hentropy : entropyHex.length = 16 * 2)
    (hresult : resultHash.length = 32 * 2) :
    makeKeyOfBytes entropyHex resultHash = (fromHex 16 entropyHex).bind fun entropy =>
      (fromHex 32 resultHash).map (entropy ++ ·) := by
  rw [makeKeyOfBytes, if_pos ⟨hentropy, hresult⟩, appendHex_eq [] (by decide : 0 < 16) hentropy]
  cases fromHex 16 entropyHex with
  | none => rfl
  | some entropy => exact appendHex_eq entropy (by decide : 0 < 32) hresult

theorem exists_key (hentropy : Miner.validEncoding 16 entropyHex = true)
    (hresult : Miner.validEncoding 32 resultHash = true) : ∃ entropy result,
      fromHex 16 entropyHex = some entropy ∧ fromHex 32 resultHash = some result ∧
        makeKeyOfBytes entropyHex resultHash = some (entropy ++ result) := by
  obtain ⟨hentropyLength, entropy, hentropyBytes⟩ := validEncoding_iff.mp hentropy
  obtain ⟨hresultLength, result, hresultBytes⟩ := validEncoding_iff.mp hresult
  refine ⟨entropy, result, hentropyBytes, hresultBytes, ?_⟩
  rw [makeKeyOfBytes_eq hentropyLength hresultLength, hentropyBytes, hresultBytes]
  rfl

/-- The cache reads hexadecimal text as the check of submissions does: a result that passes the
check has a key, and on one template the key tells results apart as their bytes do. -/
theorem decoders_agree :
    (∀ size > 0, ∀ hex : List UInt8, hex.length = size * 2 → ∀ out : List UInt8,
      appendHex out hex = (fromHex size hex).map (out ++ ·)) ∧
    (∀ entropyHex resultHash : List UInt8, Miner.validEncoding 16 entropyHex = true →
      Miner.validEncoding 32 resultHash = true → ∃ key,
        makeKeyOfBytes entropyHex resultHash = some key ∧ key.length = keySize) ∧
    ∀ entropyHex resultHash resultHash' : List UInt8, Miner.validEncoding 16 entropyHex = true →
      Miner.validEncoding 32 resultHash = true → Miner.validEncoding 32 resultHash' = true →
      (makeKeyOfBytes entropyHex resultHash = makeKeyOfBytes entropyHex resultHash' ↔
        fromHex 32 resultHash = fromHex 32 resultHash') := by
  refine ⟨fun size hsize hex hlength out => appendHex_eq out hsize hlength, ?_, ?_⟩
  · intro entropyHex resultHash hentropy hresult
    obtain ⟨entropy, result, hentropyBytes, hresultBytes, hkey⟩ := exists_key hentropy hresult
    have hentropyLength := (validEncoding_iff.mp hentropy).1
    have hresultLength := (validEncoding_iff.mp hresult).1
    refine ⟨_, hkey, ?_⟩
    rw [fromHex_eq (by decide) hentropyLength] at hentropyBytes
    rw [fromHex_eq (by decide) hresultLength] at hresultBytes
    have hentropySize := hexPairs_length hentropyBytes
    have hresultSize := hexPairs_length hresultBytes
    rw [List.length_append, keySize]
    omega
  · intro entropyHex resultHash resultHash' hentropy hresult hresult'
    obtain ⟨entropy, result, hentropyBytes, hresultBytes, hkey⟩ := exists_key hentropy hresult
    obtain ⟨entropy', result', hentropyBytes', hresultBytes', hkey'⟩ := exists_key hentropy hresult'
    obtain rfl := Option.some.inj (hentropyBytes.symm.trans hentropyBytes')
    rw [hkey, hkey', hresultBytes, hresultBytes', Option.some.injEq, Option.some.injEq]
    exact List.append_right_inj entropy

end Decoders

section Texts

/-- Characters that are no digits have no byte that is one. -/
theorem hexValue_of_not_ascii {x : UInt8} (hx : ¬ x < 0x80) : hexValue x < 0 := by
  have htable : ∀ n < 256, 128 ≤ n → hexValue (UInt8.ofNat n) < 0 := by decide +kernel
  have hnat : 128 ≤ x.toNat := UInt8.le_iff_toNat_le.mp (not_lt.mp hx)
  have hvalue := htable x.toNat x.toNat_lt hnat
  rwa [UInt8.ofNat_toNat] at hvalue

theorem digit_eq {c : Char} (hascii : c.toNat < 0x80) : Hex.digit c =
    if hexValue (UInt8.ofNat c.toNat) < 0 then none
    else some (hexValue (UInt8.ofNat c.toNat)).toNat := by
  have htable : ∀ n < 128, Hex.digit (Char.ofNat n) =
      if hexValue (UInt8.ofNat n) < 0 then none else some (hexValue (UInt8.ofNat n)).toNat := by
    decide +kernel
  have hdigit := htable c.toNat hascii
  rwa [Char.ofNat_toNat] at hdigit

theorem hexPairs_of_foreign {x : UInt8} (hx : hexValue x < 0) (hex : List UInt8) :
    hexPairs (x :: hex) = none := by
  cases hex with
  | nil => rfl
  | cons y hex => rw [hexPairs_cons, if_pos (Or.inl hx)]

theorem hexPairs_of_foreign_low {x y : UInt8} (hy : hexValue y < 0) (hex : List UInt8) :
    hexPairs (x :: y :: hex) = none := by
  rw [hexPairs_cons, if_pos (Or.inr hy)]

/-- A character is a byte of its own, or starts with a byte that is no digit and is no digit
itself. -/
theorem encode_cases (c : Char) :
    (c.toNat < 0x80 ∧ String.utf8EncodeChar c = [UInt8.ofNat c.toNat]) ∨
      (Hex.digit c = none ∧ ∃ x rest, String.utf8EncodeChar c = x :: rest ∧ hexValue x < 0) := by
  by_cases hascii : c.toNat < 0x80
  · exact Or.inl ⟨hascii, utf8EncodeChar_of_ascii hascii⟩
  · refine Or.inr ⟨?_, ?_⟩
    · cases hdigit : Hex.digit c with
      | none => rfl
      | some d => exact absurd (Hex.digit_lt hdigit).1 hascii
    · cases hencode : String.utf8EncodeChar c with
      | nil => exact absurd hencode String.utf8EncodeChar_ne_nil
      | cons x rest =>
          refine ⟨x, rest, rfl, hexValue_of_not_ascii fun hx => hascii ?_⟩
          obtain ⟨hnat, -⟩ := utf8EncodeChar_ascii (hencode ▸ List.mem_cons_self) hx
          rw [hnat]
          exact UInt8.lt_iff_toNat_lt.mp hx

theorem byte_of_digits {c d : Char} (hc : c.toNat < 0x80) (hd : d.toNat < 0x80) : Hex.byte c d =
    if hexValue (UInt8.ofNat c.toNat) < 0 ∨ hexValue (UInt8.ofNat d.toNat) < 0 then none
    else some (UInt8.ofNat ((hexValue (UInt8.ofNat c.toNat)).toNat <<< 4 |||
      (hexValue (UInt8.ofNat d.toNat)).toNat)) := by
  have hjoin : ∀ high < 16, ∀ low < 16, 16 * high + low = high <<< 4 ||| low := by decide
  rw [Hex.byte, digit_eq hc, digit_eq hd]
  generalize hhigh : hexValue (UInt8.ofNat c.toNat) = high
  generalize hlow : hexValue (UInt8.ofNat d.toNat) = low
  by_cases hc : high < 0
  · rw [if_pos hc, if_pos (Or.inl hc)]
  · by_cases hd : low < 0
    · rw [if_neg hc, if_pos hd, if_pos (Or.inr hd)]
    · rw [if_neg hc, if_neg hd, if_neg (not_or.mpr ⟨hc, hd⟩)]
      have hcBound := (cVal_eq (hhigh ▸ not_lt.mp hc)).1
      have hdBound := (cVal_eq (hlow ▸ not_lt.mp hd)).1
      rw [hhigh] at hcBound
      rw [hlow] at hdBound
      dsimp only
      rw [hjoin _ (by omega) _ (by omega)]

/-- The decoder of texts reads their bytes. -/
theorem decode_eq_hexPairs (cs : List Char) : Hex.decode cs = hexPairs (utf8 cs) := by
  induction cs using Hex.decode.induct with
  | case1 => rfl
  | case2 c =>
      rw [utf8_cons]
      rcases encode_cases c with ⟨-, hencode⟩ | ⟨-, x, rest, hencode, hx⟩
      · rw [hencode]
        rfl
      · rw [hencode, List.cons_append, hexPairs_of_foreign hx]
        rfl
  | case3 c d cs ih =>
      rw [Hex.decode, utf8_cons, utf8_cons]
      rcases encode_cases c with ⟨hc, hcode⟩ | ⟨hnone, x, rest, hcode, hx⟩
      · rw [hcode, List.cons_append, List.nil_append]
        rcases encode_cases d with ⟨hd, hdcode⟩ | ⟨hnone, x, rest, hdcode, hx⟩
        · rw [hdcode, List.cons_append, List.nil_append, byte_of_digits hc hd, hexPairs_cons, ih]
          split
          · rfl
          · rfl
        · rw [hdcode, List.cons_append, hexPairs_of_foreign_low hx, Hex.byte, hnone]
          cases Hex.digit c with
          | none => rfl
          | some n => rfl
      · rw [hcode, List.cons_append, hexPairs_of_foreign hx, Hex.byte, hnone]
        rfl

theorem length_utf8_of_decode {cs : List Char} {bs : List UInt8} (h : Hex.decode cs = some bs) :
    (utf8 cs).length = cs.length := by
  rw [Hex.decode_length h, hexPairs_length (decode_eq_hexPairs cs ▸ h)]

theorem appendHex_eq_hexPairs (out hex : List UInt8) :
    appendHex out hex = (hexPairs hex).map (out ++ ·) := by
  unfold appendHex
  split
  · next hodd =>
    cases hpairs : hexPairs hex with
    | none => rfl
    | some bytes =>
        have hlength := hexPairs_length hpairs
        omega
  · rfl

/-- The key of the texts is the one of their bytes. -/
theorem makeKey_eq (entropyHex resultHash : String) :
    makeKey entropyHex resultHash = makeKeyOfBytes (bytes entropyHex) (bytes resultHash) := by
  have hlength (s : String) : s.length = s.toList.length := rfl
  unfold makeKey makeKeyOfBytes
  rw [bytes_eq_utf8, bytes_eq_utf8, hlength, hlength]
  cases hentropy : Hex.decode entropyHex.toList with
  | none =>
      rw [appendHex_eq_hexPairs, ← decode_eq_hexPairs, hentropy]
      split
      · split
        · rfl
        · rfl
      · split
        · rfl
        · rfl
  | some entropy =>
      cases hresult : Hex.decode resultHash.toList with
      | none =>
          rw [appendHex_eq_hexPairs, ← decode_eq_hexPairs, hentropy, Option.map_some,
            Option.bind_some, Option.bind_some, appendHex_eq_hexPairs,
              ← decode_eq_hexPairs, hresult]
          split
          · split
            · rfl
            · rfl
          · split
            · rfl
            · rfl
      | some result =>
          rw [length_utf8_of_decode hentropy, length_utf8_of_decode hresult, appendHex_eq_hexPairs,
            ← decode_eq_hexPairs, hentropy, Option.map_some, Option.bind_some, Option.bind_some,
            appendHex_eq_hexPairs, ← decode_eq_hexPairs, hresult]
          rfl

/-- The check of a text is the one of its bytes. -/
theorem isHexOf_eq {size : ℕ} (hsize : 0 < size) (text : String) :
    Miner.isHexOf size (some text) = Miner.validEncoding size (bytes text) := by
  have hlength : text.length = text.toList.length := rfl
  rw [Bool.eq_iff_iff, validEncoding_iff, Miner.isHexOf, Option.any_some, Bool.and_eq_true,
    decide_eq_true_eq, bytes_eq_utf8, hlength, Option.isSome_iff_exists]
  constructor
  · rintro ⟨hchars, bs, hbs⟩
    have hutf8 : (utf8 text.toList).length = size * 2 := (length_utf8_of_decode hbs).trans hchars
    refine ⟨hutf8, bs, ?_⟩
    rw [fromHex_eq hsize hutf8, ← decode_eq_hexPairs]
    exact hbs
  · rintro ⟨hutf8, bs, hbs⟩
    rw [fromHex_eq hsize hutf8, ← decode_eq_hexPairs] at hbs
    exact ⟨(length_utf8_of_decode hbs).symm.trans hutf8, bs, hbs⟩

end Texts

end GlobalShareCache

end XmrigProxy
