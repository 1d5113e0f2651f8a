import Mathlib.Data.List.Basic
import Mathlib.Data.List.GetD
import Mathlib.Data.Nat.Notation
import Mathlib.Tactic.Common

/-!
# Text as UTF-8

Characters as lists of bytes. The bytes below 128 are characters of their own, and every other byte
shows whether it continues a character, so that a text can be searched and cut byte by byte.
-/

namespace XmrigProxy

def utf8 (cs : List Char) : List UInt8 := cs.flatMap String.utf8EncodeChar

def bytes (s : String) : List UInt8 := s.toByteArray.data.toList

def decodeUtf8 (xs : List UInt8) : Option (List Char) :=
  (xs.toByteArray.utf8Decode?).map Array.toList

def isContinuation (x : UInt8) : Bool := x &&& 0xc0 = 0x80

theorem utf8_cons (c : Char) (cs : List Char) :
    utf8 (c :: cs) = String.utf8EncodeChar c ++ utf8 cs :=
  List.flatMap_cons

theorem utf8_append (xs ys : List Char) : utf8 (xs ++ ys) = utf8 xs ++ utf8 ys :=
  List.flatMap_append

theorem bytes_eq_utf8 (s : String) : bytes s = utf8 s.toList := by
  have hencode : s.toByteArray = (utf8 s.toList).toByteArray := String.utf8Encode_toList.symm
  unfold bytes
  rw [hencode, List.data_toByteArray]

theorem decodeUtf8_utf8 (cs : List Char) : decodeUtf8 (utf8 cs) = some cs := by
  have hdecode : (utf8 cs).toByteArray.utf8Decode? = some cs.toArray := List.utf8Decode?_utf8Encode
  unfold decodeUtf8
  rw [hdecode]
  rfl

theorem isContinuation_of_mem_tail {c : Char} {x : UInt8}
    (hx : x ∈ (String.utf8EncodeChar c).tail) : isContinuation x = true := by
  have hsix : ∀ n < 64, isContinuation (UInt8.ofNat (n + 0x80)) = true := by decide
  have hmod : ∀ n : ℕ, isContinuation (UInt8.ofNat (n % 0x40 + 0x80)) = true := fun n =>
    hsix _ (Nat.mod_lt _ (by decide))
  unfold String.utf8EncodeChar at hx
  dsimp only at hx
  split_ifs at hx
  · exact absurd hx List.not_mem_nil
  · simp only [List.tail_cons, List.mem_singleton] at hx
    exact hx ▸ hmod _
  · simp only [List.tail_cons, List.mem_cons, List.not_mem_nil, or_false] at hx
    rcases hx with rfl | rfl
    · exact hmod _
    · exact hmod _
  · simp only [List.tail_cons, List.mem_cons, List.not_mem_nil, or_false] at hx
    rcases hx with rfl | rfl | rfl
    · exact hmod _
    · exact hmod _
    · exact hmod _

/-- A byte below 128 is a character of its own. -/
theorem utf8EncodeChar_ascii {c : Char} {x : UInt8} (hx : x ∈ String.utf8EncodeChar c)
    (hascii : x < 0x80) : c.toNat = x.toNat ∧ String.utf8EncodeChar c = [x] := by
  have hbig : ∀ n : ℕ, 0x80 ≤ n → n < 0x100 → x = UInt8.ofNat n → False := by
    rintro n hlow hhigh rfl
    have hlt := UInt8.lt_iff_toNat_lt.mp hascii
    rw [UInt8.toNat_ofNat_of_lt' hhigh] at hlt
    have htop : (0x80 : UInt8).toNat = 0x80 := rfl
    omega
  have hval : c.val.toNat = c.toNat := rfl
  unfold String.utf8EncodeChar at hx ⊢
  dsimp only at hx ⊢
  rw [hval] at hx ⊢
  split_ifs at hx with hone htwo hthree
  · rw [if_pos hone, ← List.mem_singleton.mp hx]
    refine ⟨?_, rfl⟩
    rw [List.mem_singleton.mp hx, UInt8.toNat_ofNat_of_lt' (show c.toNat < UInt8.size by
      have hsize : UInt8.size = 256 := rfl
      omega)]
  · exfalso
    simp only [List.mem_cons, List.not_mem_nil, or_false] at hx
    rcases hx with hx | hx
    · exact hbig _ (by omega) (by omega) hx
    · exact hbig _ (by omega) (by omega) hx
  · exfalso
    simp only [List.mem_cons, List.not_mem_nil, or_false] at hx
    rcases hx with hx | hx | hx
    · exact hbig _ (by omega) (by omega) hx
    · exact hbig _ (by omega) (by omega) hx
    · exact hbig _ (by omega) (by omega) hx
  · exfalso
    simp only [List.mem_cons, List.not_mem_nil, or_false] at hx
    rcases hx with hx | hx | hx | hx
    · exact hbig _ (by omega) (by omega) hx
    · exact hbig _ (by omega) (by omega) hx
    · exact hbig _ (by omega) (by omega) hx
    · exact hbig _ (by omega) (by omega) hx

theorem utf8EncodeChar_of_ascii {c : Char} (hascii : c.toNat < 0x80) :
    String.utf8EncodeChar c = [UInt8.ofNat c.toNat] := by
  have hval : c.val.toNat = c.toNat := rfl
  unfold String.utf8EncodeChar
  dsimp only
  rw [hval, if_pos (by omega)]

/-- Which characters have a given byte below 128. -/
theorem mem_utf8EncodeChar_ascii {a c : Char} (hascii : a.toNat < 0x80) :
    UInt8.ofNat a.toNat ∈ String.utf8EncodeChar c ↔ c = a := by
  have hsize : UInt8.size = 256 := rfl
  have hnat : (UInt8.ofNat a.toNat).toNat = a.toNat := UInt8.toNat_ofNat_of_lt' (by omega)
  constructor
  · intro hmem
    have hlow : UInt8.ofNat a.toNat < 0x80 := by
      rw [UInt8.lt_iff_toNat_lt, hnat]
      exact hascii
    obtain ⟨hc, -⟩ := utf8EncodeChar_ascii hmem hlow
    rw [hnat] at hc
    exact Char.toNat_inj.mp hc
  · rintro rfl
    rw [utf8EncodeChar_of_ascii hascii]
    exact List.mem_singleton_self _

theorem mem_utf8_ascii {a : Char} (hascii : a.toNat < 0x80) {cs : List Char} :
    UInt8.ofNat a.toNat ∈ utf8 cs ↔ a ∈ cs := by
  unfold utf8
  rw [List.mem_flatMap]
  constructor
  · rintro ⟨c, hc, hmem⟩
    exact (mem_utf8EncodeChar_ascii hascii).mp hmem ▸ hc
  · intro ha
    exact ⟨a, ha, (mem_utf8EncodeChar_ascii hascii).mpr rfl⟩

/-- A byte that continues no character starts one. -/
theorem starts_of_not_continuation {cs : List Char} {position : ℕ}
    (hbound : position < (utf8 cs).length)
    (hstart : isContinuation ((utf8 cs).getD position 0) = false) :
    ∃ kept rest, cs = kept ++ rest ∧ position = (utf8 kept).length := by
  induction cs generalizing position with
  | nil => exact absurd hbound (Nat.not_lt_zero _)
  | cons c cs ih =>
      rw [utf8_cons] at hbound hstart
      rcases Nat.lt_or_ge position (String.utf8EncodeChar c).length with hin | hout
      · rcases Nat.eq_zero_or_pos position with rfl | hpos
        · exact ⟨[], c :: cs, rfl, rfl⟩
        · exfalso
          rw [List.getD_append _ _ _ _ hin] at hstart
          have hmem : (String.utf8EncodeChar c).getD position
              0 ∈ (String.utf8EncodeChar c).tail := by
            obtain ⟨n, rfl⟩ : ∃ n, position = n + 1 := ⟨position - 1, by omega⟩
            rcases hbytes : String.utf8EncodeChar c with _ | ⟨first, more⟩
            · rw [hbytes] at hin
              exact absurd hin (Nat.not_lt_zero _)
            · rw [hbytes, List.length_cons] at hin
              rw [List.getD_cons_succ, List.tail_cons,
                List.getD_eq_getElem _ _ (by omega : n < more.length)]
              exact List.getElem_mem _
          rw [isContinuation_of_mem_tail hmem] at hstart
          exact Bool.false_ne_true hstart.symm
      · rw [List.getD_append_right _ _ _ _ hout] at hstart
        rw [List.length_append] at hbound
        obtain ⟨kept, rest, rfl, hposition⟩ := ih (by omega) hstart
        refine ⟨c :: kept, rest, rfl, ?_⟩
        rw [utf8_cons, List.length_append]
        omega

theorem utf8_of_decodeUtf8 {xs : List UInt8} {cs : List Char} (h : decodeUtf8 xs = some cs) :
    utf8 cs = xs := by
  unfold decodeUtf8 at h
  obtain ⟨chars, hchars, rfl⟩ := Option.map_eq_some_iff.mp h
  have hsome : xs.toByteArray.utf8Decode?.isSome = true := by rw [hchars, Option.isSome_some]
  have hget := ByteArray.utf8Encode_get_utf8Decode? (h := hsome)
  simp only [hchars, Option.get_some] at hget
  have hlists : (utf8 chars.toList).toByteArray.data.toList = xs.toByteArray.data.toList :=
    congrArg (fun b : ByteArray => b.data.toList) hget
  rwa [List.data_toByteArray, List.data_toByteArray] at hlists

theorem utf8_injective : Function.Injective utf8 := by
  intro cs ds h
  have hdecode := decodeUtf8_utf8 cs
  rw [h, decodeUtf8_utf8] at hdecode
  exact (Option.some.inj hdecode).symm

/-- A byte below 128 separates two texts. -/
theorem utf8_split {a : Char} (hascii : a.toNat < 0x80) {cs : List Char} {left right : List UInt8}
    (h : utf8 cs = left ++ UInt8.ofNat a.toNat :: right) :
    ∃ ds es, cs = ds ++ a :: es ∧ utf8 ds = left ∧ utf8 es = right := by
  induction cs generalizing left with
  | nil => exact absurd h.symm (List.append_ne_nil_of_right_ne_nil _ (List.cons_ne_nil _ _))
  | cons d rest ih =>
      have hchar : UInt8.ofNat a.toNat ∈ String.utf8EncodeChar d → d = a :=
        (mem_utf8EncodeChar_ascii hascii).mp
      rw [utf8_cons] at h
      by_cases heq : d = a
      · subst heq
        rw [utf8EncodeChar_of_ascii hascii] at h
        rcases left with _ | ⟨y, left⟩
        · exact ⟨[], rest, rfl, rfl, (List.cons.inj h).2⟩
        · obtain ⟨rfl, hrest⟩ := List.cons.inj h
          obtain ⟨ds, es, rfl, rfl, rfl⟩ := ih hrest
          refine ⟨d :: ds, es, rfl, ?_, rfl⟩
          rw [utf8_cons, utf8EncodeChar_of_ascii hascii]
          rfl
      · rcases List.append_eq_append_iff.mp h with ⟨more, rfl, hrest⟩ | ⟨more, hbytes, hrest⟩
        · obtain ⟨ds, es, rfl, rfl, rfl⟩ := ih hrest
          exact ⟨d :: ds, es, rfl, utf8_cons d ds, rfl⟩
        · rcases more with _ | ⟨y, more⟩
          · have hempty : utf8 rest = [] ++ UInt8.ofNat a.toNat :: right := hrest.symm
            obtain ⟨ds, es, rfl, hds, rfl⟩ := ih hempty
            refine ⟨d :: ds, es, rfl, ?_, rfl⟩
            rw [utf8_cons, hds, hbytes, List.append_nil, List.append_nil]
          · obtain ⟨rfl, -⟩ := List.cons.inj hrest
            exact absurd (hchar (hbytes ▸ List.mem_append_right _ List.mem_cons_self)) heq

end XmrigProxy
