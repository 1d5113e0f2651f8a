import Mathlib.Data.List.Basic
import Mathlib.Data.List.Lex
import Mathlib.Order.Basic
import Mathlib.Data.Nat.Notation
import Mathlib.Tactic.Common

/-!
# Hexadecimal text

Byte strings written with two hexadecimal digits per byte, in either case. Decoding
is strict: an odd length or a foreign character anywhere rejects the whole text.
-/

namespace XmrigProxy.Hex

/-- Bytes in numerical order, so that byte strings are ordered lexicographically. -/
instance instLinearOrderUInt8 : LinearOrder UInt8 :=
  LinearOrder.lift' UInt8.toNat fun _ _ h => UInt8.toNat_inj.mp h

def digit (c : Char) : Option ℕ :=
  if '0' ≤ c ∧ c ≤ '9' then some (c.toNat - 48)
  else if 'a' ≤ c ∧ c ≤ 'f' then some (c.toNat - 87)
  else if 'A' ≤ c ∧ c ≤ 'F' then some (c.toNat - 55)
  else none

def byte (high low : Char) : Option UInt8 :=
  match digit high, digit low with
  | some h, some l => some (UInt8.ofNat (16 * h + l))
  | _, _ => none

def decode : List Char → Option (List UInt8)
  | [] => some []
  | [_] => none
  | high :: low :: rest => (byte high low).bind fun b => (decode rest).map (b :: ·)

def hexDigit (n : ℕ) : Char := if n < 10 then Char.ofNat (48 + n) else Char.ofNat (87 + n)

def encode (bytes : List UInt8) : List Char :=
  bytes.flatMap fun b => [hexDigit (b.toNat / 16), hexDigit (b.toNat % 16)]

/-- `xs` with `ys` written over it from position `i`. -/
def patch {α : Type*} (xs : List α) (i : ℕ) (ys : List α) : List α :=
  xs.take i ++ ys ++ xs.drop (i + ys.length)

theorem decode_cons_eq_some {high low : Char} {rest : List Char} {bs : List UInt8} :
    decode (high :: low :: rest) = some bs ↔
      ∃ b tail, byte high low = some b ∧ decode rest = some tail ∧ b :: tail = bs := by
  simp only [decode, Option.bind_eq_some_iff, Option.map_eq_some_iff]
  constructor
  · rintro ⟨b, hb, tail, ht, rfl⟩
    exact ⟨b, tail, hb, ht, rfl⟩
  · rintro ⟨b, tail, hb, ht, rfl⟩
    exact ⟨b, hb, tail, ht, rfl⟩

theorem decode_length {cs : List Char} {bs : List UInt8} (h : decode cs = some bs) :
    cs.length = 2 * bs.length := by
  induction cs using decode.induct generalizing bs with
  | case1 =>
      obtain rfl : [] = bs := by simpa [decode] using h
      rfl
  | case2 => simp [decode] at h
  | case3 high low rest ih =>
      obtain ⟨b, tail, -, ht, rfl⟩ := decode_cons_eq_some.mp h
      have := ih ht
      simp only [List.length_cons]
      omega

theorem decode_append {xs ys : List Char} {as : List UInt8} (h : decode xs = some as) :
    decode (xs ++ ys) = (decode ys).map (as ++ ·) := by
  induction xs using decode.induct generalizing as with
  | case1 =>
      obtain rfl : [] = as := by simpa [decode] using h
      simp
  | case2 => simp [decode] at h
  | case3 high low rest ih =>
      obtain ⟨b, tail, hb, ht, rfl⟩ := decode_cons_eq_some.mp h
      simp only [List.cons_append, decode, hb, ih ht, Option.bind_some, Option.map_map]
      rfl

theorem digit_hexDigit : ∀ n < 16, digit (hexDigit n) = some n := by decide

theorem byte_hexDigit (b : UInt8) :
    byte (hexDigit (b.toNat / 16)) (hexDigit (b.toNat % 16)) = some b := by
  have hb : b.toNat < 256 := b.toNat_lt
  rw [byte, digit_hexDigit _ (by omega), digit_hexDigit _ (by omega)]
  dsimp only
  rw [Nat.div_add_mod, UInt8.ofNat_toNat]

theorem decode_encode (bytes : List UInt8) : decode (encode bytes) = some bytes := by
  induction bytes with
  | nil => rfl
  | cons b rest ih =>
      change decode (_ :: _ :: encode rest) = _
      rw [decode_cons_eq_some]
      exact ⟨b, rest, byte_hexDigit b, ih, rfl⟩

theorem mem_encode {bytes : List UInt8} {c : Char} (h : c ∈ encode bytes) :
    ∃ n < 16, hexDigit n = c := by
  obtain ⟨b, -, hc⟩ := List.mem_flatMap.mp h
  have hb : b.toNat < 256 := b.toNat_lt
  rcases List.mem_pair.mp hc with rfl | rfl
  · exact ⟨b.toNat / 16, by omega, rfl⟩
  · exact ⟨b.toNat % 16, by omega, rfl⟩

theorem utf8Size_hexDigit : ∀ n < 16, (hexDigit n).utf8Size = 1 := by decide

@[simp] theorem length_encode (bytes : List UInt8) : (encode bytes).length = 2 * bytes.length := by
  have := decode_length (decode_encode bytes)
  omega

theorem toLower_of_digit_ascii : ∀ n < 128, ∀ d < 16, digit (Char.ofNat n) = some d →
    (Char.ofNat n).toLower = hexDigit d := by decide +kernel

theorem digit_lt {c : Char} {d : ℕ} (h : digit c = some d) : c.toNat < 128 ∧ d < 16 := by
  unfold digit at h
  simp only [Char.le_def, UInt32.le_iff_toNat_le] at h
  have hnat : c.toNat = c.val.toNat := rfl
  split_ifs at h with h₁ h₂ h₃
  · obtain rfl := Option.some.inj h
    have : '0'.val.toNat = 48 ∧ '9'.val.toNat = 57 := by decide
    omega
  · obtain rfl := Option.some.inj h
    have : 'a'.val.toNat = 97 ∧ 'f'.val.toNat = 102 := by decide
    omega
  · obtain rfl := Option.some.inj h
    have : 'A'.val.toNat = 65 ∧ 'F'.val.toNat = 70 := by decide
    omega

theorem toLower_of_digit {c : Char} {d : ℕ} (h : digit c = some d) : c.toLower = hexDigit d := by
  obtain ⟨hc, hd⟩ := digit_lt h
  have hlower := toLower_of_digit_ascii c.toNat hc d hd
  rw [Char.ofNat_toNat] at hlower
  exact hlower h

/-- The lower case of a text is the text that is written for its bytes. -/
theorem map_toLower_of_decode {cs : List Char} {bs : List UInt8} (h : decode cs = some bs) :
    cs.map Char.toLower = encode bs := by
  induction cs using decode.induct generalizing bs with
  | case1 =>
      obtain rfl : [] = bs := by simpa [decode] using h
      rfl
  | case2 => simp [decode] at h
  | case3 high low rest ih =>
      obtain ⟨b, tail, hb, ht, rfl⟩ := decode_cons_eq_some.mp h
      unfold byte at hb
      split at hb
      · next x y hx hy =>
          obtain rfl := Option.some.inj hb
          have hvalue : (UInt8.ofNat (16 * x + y)).toNat = 16 * x + y := by
            have := (digit_lt hx).2
            have := (digit_lt hy).2
            rw [UInt8.toNat_ofNat']
            omega
          have hy' := (digit_lt hy).2
          rw [List.map_cons, List.map_cons, ih ht, toLower_of_digit hx, toLower_of_digit hy]
          change _ = hexDigit ((UInt8.ofNat (16 * x + y)).toNat / 16) ::
            hexDigit ((UInt8.ofNat (16 * x + y)).toNat % 16) :: encode tail
          rw [hvalue, show (16 * x + y) / 16 = x by omega, show (16 * x + y) % 16 = y by omega]
      · exact nomatch hb

/-- Texts of the same bytes differ in case only. -/
theorem map_toLower_eq_iff {cs cs' : List Char} {bs bs' : List UInt8} (h : decode cs = some bs)
    (h' : decode cs' = some bs') : cs.map Char.toLower = cs'.map Char.toLower ↔ bs = bs' := by
  rw [map_toLower_of_decode h, map_toLower_of_decode h']
  constructor
  · intro hencode
    have hdecode := congrArg decode hencode
    rw [decode_encode, decode_encode] at hdecode
    exact Option.some.inj hdecode
  · exact congrArg encode

section Patch

variable {α : Type*} {xs ys : List α} {i : ℕ}

theorem length_patch (h : i + ys.length ≤ xs.length) : (patch xs i ys).length = xs.length := by
  unfold patch
  rw [List.length_append, List.length_append, List.length_take, List.length_drop]
  omega

theorem getElem?_patch (h : i + ys.length ≤ xs.length) (p : ℕ) :
    (patch xs i ys)[p]? = if p < i then xs[p]? else if p < i + ys.length then ys[p - i]?
      else xs[p]? := by
  have htake : (xs.take i).length = i := by
    rw [List.length_take]
    omega
  unfold patch
  rw [List.append_assoc, List.getElem?_append, htake]
  split
  · next hp => rw [List.getElem?_take_of_lt hp]
  · rw [List.getElem?_append]
    by_cases hp : p < i + ys.length
    · rw [if_pos hp, if_pos (by omega)]
    · rw [if_neg hp, if_neg (by omega), List.getElem?_drop]
      congr 1
      omega

/-- Outside of what is written nothing changes. -/
theorem getElem?_patch_of_outside (h : i + ys.length ≤ xs.length) {p : ℕ}
    (hp : p < i ∨ i + ys.length ≤ p) : (patch xs i ys)[p]? = xs[p]? := by
  rw [getElem?_patch h]
  split
  · rfl
  · rw [if_neg (by omega)]

theorem getElem?_patch_of_inside (h : i + ys.length ≤ xs.length) {k : ℕ} (hk : k < ys.length) :
    (patch xs i ys)[i + k]? = ys[k]? := by
  rw [getElem?_patch h, if_neg (by omega), if_pos (by omega), Nat.add_sub_cancel_left]

theorem take_patch (h : i + ys.length ≤ xs.length) {n : ℕ} (hn : n ≤ i) :
    (patch xs i ys).take n = xs.take n := by
  refine List.ext_getElem? fun p => ?_
  rw [List.getElem?_take, List.getElem?_take]
  split
  · rw [getElem?_patch_of_outside h (Or.inl (by omega))]
  · rfl

/-- Something written to a part is written to the whole. -/
theorem slice_patch (h : i + ys.length ≤ xs.length) {start n : ℕ} (hstart : start ≤ i)
    (hstop : i + ys.length ≤ start + n) :
    ((patch xs i ys).drop start).take n = patch ((xs.drop start).take n) (i - start) ys := by
  have hinside : i - start + ys.length ≤ ((xs.drop start).take n).length := by
    rw [List.length_take, List.length_drop]
    omega
  refine List.ext_getElem? fun p => ?_
  rw [getElem?_patch hinside, List.getElem?_take, List.getElem?_take, List.getElem?_drop,
    List.getElem?_drop, getElem?_patch h]
  by_cases hbefore : p < i - start
  · rw [if_pos hbefore, if_pos (by omega : start + p < i)]
  · rw [if_neg hbefore, if_neg (by omega : ¬ start + p < i)]
    by_cases hin : p < i - start + ys.length
    · rw [if_pos hin, if_pos (by omega : start + p < i + ys.length), if_pos (by omega : p < n)]
      congr 1
      omega
    · rw [if_neg hin, if_neg (by omega : ¬ start + p < i + ys.length)]

theorem slice_patch_of_outside (h : i + ys.length ≤ xs.length) {start n : ℕ}
    (hout : start + n ≤ i ∨ i + ys.length ≤ start) :
    ((patch xs i ys).drop start).take n = (xs.drop start).take n := by
  refine List.ext_getElem? fun p => ?_
  rw [List.getElem?_take, List.getElem?_take]
  split
  · rw [List.getElem?_drop, List.getElem?_drop, getElem?_patch_of_outside h (by omega)]
  · rfl

theorem patch_append_left (h : i + ys.length ≤ xs.length) (zs : List α) :
    patch (xs ++ zs) i ys = patch xs i ys ++ zs := by
  unfold patch
  rw [List.take_append_of_le_length (by omega), List.drop_append_of_le_length h]
  simp only [List.append_assoc]

theorem not_lt_of_patch_eq {j n : ℕ} (hn : 0 < n) (hi : i + n ≤ xs.length) (hj : j + n ≤ xs.length)
    (h : ∀ y, patch xs i (List.replicate n y) = patch xs j (List.replicate n y))
    (hother : ∀ x : α, ∃ y, y ≠ x) : ¬ i < j := by
  intro hlt
  obtain ⟨y, hy⟩ := hother (xs.get ⟨i, by omega⟩)
  have hfit : i + (List.replicate n y).length ≤ xs.length := by rwa [List.length_replicate]
  have hfit' : j + (List.replicate n y).length ≤ xs.length := by rwa [List.length_replicate]
  have hwritten := getElem?_patch_of_inside hfit (k := 0) (by rwa [List.length_replicate])
  rw [Nat.add_zero, h y, getElem?_patch_of_outside hfit' (Or.inl hlt),
    List.getElem?_eq_getElem (by omega), List.getElem?_replicate, if_pos hn] at hwritten
  exact hy (Option.some.inj hwritten).symm

/-- Writing the same everywhere at two places tells the places apart. -/
theorem eq_of_patch_eq {j n : ℕ} (hn : 0 < n) (hi : i + n ≤ xs.length)
    (h : ∀ y, patch xs i (List.replicate n y) = patch xs j (List.replicate n y))
    (hother : ∀ x : α, ∃ y, y ≠ x) : i = j := by
  have hj : j + n ≤ xs.length := by
    obtain ⟨y, -⟩ := hother (xs.get ⟨0, by omega⟩)
    have hlength := congrArg List.length (h y)
    rw [length_patch (by rwa [List.length_replicate])] at hlength
    unfold patch at hlength
    simp only [List.length_append, List.length_take, List.length_replicate, List.length_drop]
      at hlength
    omega
  have hle := not_lt_of_patch_eq hn hi hj h hother
  have hge := not_lt_of_patch_eq hn hj hi (fun y => (h y).symm) hother
  omega

theorem eq_of_patch_eq_patch_of_lt {j : ℕ} {zs : List α} (hlength : ys.length = zs.length)
    (hj : j + ys.length ≤ xs.length) (hlt : i < j) (hys : patch xs i ys = patch xs j ys)
    (hzs : patch xs i zs = patch xs j zs) : ys = zs := by
  -- what is written at the earlier place is the old list, and then what was written before
  have hread : ∀ ws : List α, ws.length = ys.length → patch xs i ws = patch xs j ws →
      ∀ k < ys.length, ws[k]? = if i + k < j then xs[i + k]? else ws[k - (j - i)]? := by
    intro ws hws heq k hk
    have hfit : i + ws.length ≤ xs.length := by omega
    have hwritten : k < ws.length := by omega
    rw [← getElem?_patch_of_inside hfit hwritten, heq, getElem?_patch (by omega)]
    by_cases hbefore : i + k < j
    · rw [if_pos hbefore, if_pos hbefore]
    · rw [if_neg hbefore, if_neg hbefore, if_pos (by omega)]
      congr 1
      omega
  have hsame : ∀ k, k < ys.length → ys[k]? = zs[k]? := by
    intro k
    induction k using Nat.strong_induction_on with
    | h k ih =>
        intro hk
        rw [hread ys rfl hys k hk, hread zs hlength.symm hzs k hk]
        by_cases hbefore : i + k < j
        · rw [if_pos hbefore, if_pos hbefore]
        · rw [if_neg hbefore, if_neg hbefore]
          exact ih (k - (j - i)) (by omega) (by omega)
  apply List.ext_getElem? fun k => ?_
  by_cases hk : k < ys.length
  · exact hsame k hk
  · rw [List.getElem?_eq_none (by omega), List.getElem?_eq_none (by omega)]

/-- Only one list of a length, at most, reads the same written at two places. -/
theorem eq_of_patch_eq_patch {j : ℕ} {zs : List α} (hlength : ys.length = zs.length)
    (hi : i + ys.length ≤ xs.length) (hj : j + ys.length ≤ xs.length) (hne : i ≠ j)
    (hys : patch xs i ys = patch xs j ys) (hzs : patch xs i zs = patch xs j zs) : ys = zs := by
  rcases Nat.lt_or_gt_of_ne hne with hlt | hgt
  · exact eq_of_patch_eq_patch_of_lt hlength hj hlt hys hzs
  · exact eq_of_patch_eq_patch_of_lt hlength hi hgt hys.symm hzs.symm

/-- What was written can be read back. -/
theorem patch_injective {zs : List α} (hlength : ys.length = zs.length)
    (h : i + ys.length ≤ xs.length) (heq : patch xs i ys = patch xs i zs) : ys = zs := by
  apply List.ext_getElem? fun k => ?_
  by_cases hk : k < ys.length
  · have hfit : i + zs.length ≤ xs.length := by omega
    have hwritten : k < zs.length := by omega
    rw [← getElem?_patch_of_inside h hk, heq, getElem?_patch_of_inside hfit hwritten]
  · rw [List.getElem?_eq_none (by omega), List.getElem?_eq_none (by omega)]

theorem patch_append (as bs cs bs' : List α) (h : bs'.length = bs.length) :
    patch (as ++ bs ++ cs) as.length bs' = as ++ bs' ++ cs := by
  unfold patch
  rw [h, ← List.length_append, List.drop_left, List.append_assoc as bs cs, List.take_left]

end Patch

theorem encode_append (as bs : List UInt8) : encode (as ++ bs) = encode as ++ encode bs :=
  List.flatMap_append

theorem encode_take (bs : List UInt8) (n : ℕ) : encode (bs.take n) = (encode bs).take (2 * n) := by
  induction bs generalizing n with
  | nil => rw [List.take_nil, encode, List.flatMap_nil, List.take_nil]
  | cons b bs ih =>
      cases n with
      | zero => rfl
      | succ n =>
          rw [List.take_succ_cons, encode, List.flatMap_cons, ← encode, ih]
          rfl

theorem encode_drop (bs : List UInt8) (n : ℕ) : encode (bs.drop n) = (encode bs).drop (2 * n) := by
  induction bs generalizing n with
  | nil => rw [List.drop_nil, encode, List.flatMap_nil, List.drop_nil]
  | cons b bs ih =>
      cases n with
      | zero => rfl
      | succ n =>
          rw [List.drop_succ_cons, ih]
          rfl

theorem encode_patch (xs ys : List UInt8) (i : ℕ) :
    encode (patch xs i ys) = patch (encode xs) (2 * i) (encode ys) := by
  unfold patch
  rw [encode_append, encode_append, encode_take, encode_drop, length_encode, Nat.mul_add]

theorem decode_take {cs : List Char} {bs : List UInt8} (h : decode cs = some bs) (n : ℕ) :
    decode (cs.take (2 * n)) = some (bs.take n) := by
  induction n generalizing cs bs with
  | zero => rfl
  | succ n ih =>
      match cs with
      | [] =>
          obtain rfl : [] = bs := by simpa [decode] using h
          rfl
      | [_] => simp [decode] at h
      | high :: low :: rest =>
          obtain ⟨b, tail, hb, ht, rfl⟩ := decode_cons_eq_some.mp h
          rw [show 2 * (n + 1) = 2 * n + 1 + 1 from rfl, List.take_succ_cons, List.take_succ_cons,
            List.take_succ_cons]
          exact decode_cons_eq_some.mpr ⟨b, _, hb, ih ht, rfl⟩

theorem decode_drop {cs : List Char} {bs : List UInt8} (h : decode cs = some bs) (n : ℕ) :
    decode (cs.drop (2 * n)) = some (bs.drop n) := by
  induction n generalizing cs bs with
  | zero => exact h
  | succ n ih =>
      match cs with
      | [] =>
          obtain rfl : [] = bs := by simpa [decode] using h
          rfl
      | [_] => simp [decode] at h
      | high :: low :: rest =>
          obtain ⟨b, tail, -, ht, rfl⟩ := decode_cons_eq_some.mp h
          exact ih ht

/-- Text written over text is bytes written over bytes. -/
theorem decode_patch {cs ds : List Char} {bs es : List UInt8} (h : decode cs = some bs)
    (h' : decode ds = some es) (i : ℕ) :
    decode (patch cs (2 * i) ds) = some (patch bs i es) := by
  unfold patch
  rw [List.append_assoc, decode_append (decode_take h i), decode_append h', decode_length h',
    ← Nat.mul_add, decode_drop h]
  simp [List.append_assoc]

end XmrigProxy.Hex
