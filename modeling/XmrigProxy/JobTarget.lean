import Mathlib.Data.Nat.Basic
import Mathlib.Tactic.Ring
import XmrigProxy.Miner

/-! The target of a job: the three encodings in which pools send it, and the compact form in which
the proxy issues a custom difficulty. -/
namespace XmrigProxy

/-- The `w` low bytes of a number, the lowest first. -/
def littleEndianBytes : ℕ → ℕ → List UInt8
  | 0, _ => []
  | w + 1, n => UInt8.ofNat (n % 256) :: littleEndianBytes w (n / 256)

namespace CString

/-- White space in the default locale. -/
def isSpace (c : Char) : Bool := c = ' ' || ('\x09' ≤ c && c ≤ '\x0d')

/-- The digits that a conversion to base 16 goes on with, after an optional `0x`. -/
def hexPrefix : List Char → List Char
  | '0' :: x :: d :: rest =>
      if (x = 'x' || x = 'X') && (Hex.digit d).isSome then d :: rest else '0' :: x :: d :: rest
  | cs => cs

def hexValue (cs : List Char) : ℕ :=
  (cs.takeWhile fun c => (Hex.digit c).isSome).foldl (fun n c => 16 * n + (Hex.digit c).getD 0) 0

/-- An overflow saturates; a minus sign wraps around. -/
def hexNumber (negative : Bool) (cs : List Char) : ℕ :=
  let n := hexValue (hexPrefix cs)
  if 2 ^ 64 ≤ n then 2 ^ 64 - 1
  else if negative then (2 ^ 64 - n) % 2 ^ 64
  else n

/-- `strtoull` to base 16, of which the end of the number is not used. -/
def strtoull (text : String) : ℕ :=
  match text.toList.dropWhile isSpace with
  | '-' :: cs => hexNumber true cs
  | '+' :: cs => hexNumber false cs
  | cs => hexNumber false cs

theorem digit_lt (c : Char) : (Hex.digit c).getD 0 < 16 := by
  unfold Hex.digit
  split
  · next h =>
    have : c.toNat ≤ 57 := h.2
    simp only [Option.getD_some]
    omega
  · split
    · next h =>
      have : c.toNat ≤ 102 := h.2
      simp only [Option.getD_some]
      omega
    · split
      · next h =>
        have : c.toNat ≤ 70 := h.2
        simp only [Option.getD_some]
        omega
      · simp

theorem foldl_digits_lt (cs : List Char) (n : ℕ) :
    cs.foldl (fun n c => 16 * n + (Hex.digit c).getD 0) n < (n + 1) * 16 ^ cs.length := by
  induction cs generalizing n with
  | nil => simp
  | cons c rest ih =>
      have hdigit := digit_lt c
      calc rest.foldl (fun n c => 16 * n + (Hex.digit c).getD 0) (16 * n + (Hex.digit c).getD 0)
          < (16 * n + (Hex.digit c).getD 0 + 1) * 16 ^ rest.length := ih _
        _ ≤ (16 * (n + 1)) * 16 ^ rest.length := Nat.mul_le_mul_right _ (by omega)
        _ = (n + 1) * 16 ^ (c :: rest).length := by
          rw [List.length_cons, pow_succ]
          ring

theorem hexValue_lt (cs : List Char) : hexValue cs < 16 ^ cs.length := by
  have hlength : (cs.takeWhile fun c => (Hex.digit c).isSome).length ≤ cs.length :=
    (List.takeWhile_sublist _).length_le
  calc hexValue cs < (0 + 1) * 16 ^ (cs.takeWhile fun c => (Hex.digit c).isSome).length :=
        foldl_digits_lt _ 0
    _ ≤ 16 ^ cs.length := by
      rw [Nat.zero_add, Nat.one_mul]
      exact Nat.pow_le_pow_right (by norm_num) hlength

theorem hexDigit_plain : ∀ n < 16, isSpace (Hex.hexDigit n) = false ∧ Hex.hexDigit n ≠ '-' ∧
    Hex.hexDigit n ≠ '+' ∧ Hex.hexDigit n ≠ 'x' ∧ Hex.hexDigit n ≠ 'X' := by decide

/-- Digits alone are read as they stand. -/
theorem strtoull_encode {bytes : List UInt8} (hlength : bytes.length = 4) :
    strtoull (String.ofList (Hex.encode bytes)) < 2 ^ 32 := by
  have hplain : ∀ c ∈ Hex.encode bytes, isSpace c = false ∧ c ≠ '-' ∧ c ≠ '+' ∧
      c ≠ 'x' ∧ c ≠ 'X' := by
    intro c hc
    obtain ⟨n, hn, rfl⟩ := Hex.mem_encode hc
    exact hexDigit_plain n hn
  have hvalue : hexValue (Hex.encode bytes) < 2 ^ 32 := by
    have := hexValue_lt (Hex.encode bytes)
    rw [Hex.length_encode, hlength] at this
    exact this
  have hprefix : hexPrefix (Hex.encode bytes) = Hex.encode bytes := by
    unfold hexPrefix
    split
    · next x d rest heq =>
      have hx := hplain x (by simp [heq])
      simp [hx.2.2.2.1, hx.2.2.2.2, heq]
    · rfl
  have hdrop : (Hex.encode bytes).dropWhile isSpace = Hex.encode bytes := by
    cases hcs : Hex.encode bytes with
    | nil => rfl
    | cons c rest =>
        rw [List.dropWhile_cons_of_neg]
        simp [(hplain c (by simp [hcs])).1]
  unfold strtoull
  rw [String.toList_ofList, hdrop]
  split
  · next heq => exact absurd rfl (hplain '-' (by simp [heq])).2.1
  · next heq => exact absurd rfl (hplain '+' (by simp [heq])).2.2.1
  · simp only [hexNumber, hprefix, Bool.false_eq_true, if_false]
    rw [if_neg (by omega)]
    exact hvalue

end CString

namespace Job

/-- The fields that describe the target of a job. -/
structure TargetFields where
  target : ℕ := 0
  diff : ℕ := 0
  rawTarget : String := ""
  deriving DecidableEq

/-- The size of the buffer for the text of a target. -/
def rawTargetSize : ℕ := 24

/-- The target that four bytes stand for; a division by zero has no value. -/
def expand (compact : ℕ) : Option ℕ :=
  if compact = 0 then none
  else if 0xFFFFFFFF / compact = 0 then none
  else some (0xFFFFFFFFFFFFFFFF / (0xFFFFFFFF / compact))

def parseTarget (algorithm : Algorithm) (target : String) : Option ℕ :=
  if algorithm = Algorithm.RX_YADA then some (CString.strtoull target)
  else
    match Hex.decode target.toList with
    | none => some 0
    | some raw =>
        if raw.length = 4 then expand (littleEndian raw)
        else if raw.length = 8 then some (littleEndian raw)
        else some 0

/-- `none` when the call divides by zero. -/
def setTarget (algorithm : Algorithm) (target : Option String) (s : TargetFields) :
    Option (Bool × TargetFields) :=
  match target with
  | none => some (false, s)
  | some text =>
      if text.utf8ByteSize < 4 then some (false, s)
      else
        match parseTarget algorithm text with
        | none => none
        | some 0 => some (false, { s with target := 0 })
        | some value =>
            let s := { s with
              target := value
              diff := toDiff value }
            if rawTargetSize ≤ text.utf8ByteSize then some (false, s)
            else some (true, { s with rawTarget := text })

/-- The call returns; on success the fields describe the text, on failure they are unchanged. -/
def TotalAtomic (algorithm : Algorithm) (target : Option String) (s : TargetFields) : Prop :=
  ∃ accepted after, setTarget algorithm target s = some (accepted, after) ∧
    (accepted = true → after.target ≠ 0 ∧ after.diff = toDiff after.target ∧
      target = some after.rawTarget ∧ parseTarget algorithm after.rawTarget = some after.target) ∧
    (accepted = false → after = s)

/-- Four zero bytes in the compact form. -/
def IsZeroCompact (algorithm : Algorithm) (text : String) : Prop :=
  algorithm ≠ Algorithm.RX_YADA ∧ Hex.decode text.toList = some [0, 0, 0, 0]

/-- Where the call is total and atomic: the text is too short to be read, or it is no compact zero
and either read as zero for a job whose target is zero, or a nonzero target that fits, or one that
the job has already. -/
def Settable (algorithm : Algorithm) (target : Option String) (s : TargetFields) : Prop :=
  ∀ text, target = some text → 4 ≤ text.utf8ByteSize → ¬ IsZeroCompact algorithm text ∧
    (parseTarget algorithm text = some 0 → s.target = 0) ∧
    ∀ value ≠ 0, parseTarget algorithm text = some value → rawTargetSize ≤ text.utf8ByteSize →
      s.target = value ∧ s.diff = toDiff value

end Job

@[simp] theorem length_littleEndianBytes (w n : ℕ) : (littleEndianBytes w n).length = w := by
  induction w generalizing n with
  | zero => rfl
  | succ w ih => simp only [littleEndianBytes, List.length_cons, ih]

theorem littleEndian_littleEndianBytes (w n : ℕ) :
    littleEndian (littleEndianBytes w n) = n % 256 ^ w := by
  induction w generalizing n with
  | zero => simp [littleEndianBytes, littleEndian, Nat.mod_one]
  | succ w ih =>
      have hbyte : (UInt8.ofNat (n % 256)).toNat = n % 256 := by
        rw [UInt8.toNat_ofNat']
        omega
      rw [littleEndianBytes, littleEndian, hbyte, ih, pow_succ', Nat.mod_mul]

theorem littleEndian_lt (bytes : List UInt8) : littleEndian bytes < 256 ^ bytes.length := by
  induction bytes with
  | nil => simp [littleEndian]
  | cons b rest ih =>
      have hb : b.toNat < 256 := b.toNat_lt
      rw [littleEndian, List.length_cons, pow_succ]
      omega

theorem littleEndian_eq_zero {bytes : List UInt8} :
    littleEndian bytes = 0 ↔ ∀ b ∈ bytes, b = 0 := by
  induction bytes with
  | nil => simp [littleEndian]
  | cons b rest ih =>
      have hb : b.toNat = 0 ↔ b = 0 := by
        rw [← UInt8.toNat_inj]
        rfl
      simp only [littleEndian, Nat.add_eq_zero_iff, Nat.mul_eq_zero, List.forall_mem_cons, hb, ih]
      simp

namespace Job

section SetTarget

variable {algorithm : Algorithm} {text : String} {s : TargetFields}

theorem expand_eq_none {raw : List UInt8} (hlength : raw.length = 4) :
    expand (littleEndian raw) = none ↔ raw = [0, 0, 0, 0] := by
  have hlt : littleEndian raw < 256 ^ 4 := hlength ▸ littleEndian_lt raw
  have hzeros : littleEndian raw = 0 ↔ raw = [0, 0, 0, 0] := by
    rw [littleEndian_eq_zero, ← List.eq_replicate_iff.trans (and_iff_right hlength)]
    rfl
  unfold expand
  split
  · next hzero => simpa using hzeros.mp hzero
  · next hzero =>
    have hquotient : 0xFFFFFFFF / littleEndian raw ≠ 0 := by
      rw [Ne, Nat.div_eq_zero_iff]
      omega
    rw [if_neg hquotient]
    simpa using fun h => hzero (hzeros.mpr h)

/-- The one division by zero. -/
theorem parseTarget_eq_none : parseTarget algorithm text = none ↔ IsZeroCompact algorithm text := by
  unfold parseTarget IsZeroCompact
  split
  · next h => simp [h]
  · next h =>
    cases hraw : Hex.decode text.toList with
    | none => simp
    | some raw =>
        dsimp only
        split
        · next hlength =>
          rw [expand_eq_none hlength]
          simp [h]
        · next hlength =>
          have hne : raw ≠ [0, 0, 0, 0] := by
            rintro rfl
            exact hlength rfl
          split
          · simp [hne]
          · simp [hne]

theorem setTarget_zero (hlong : 4 ≤ text.utf8ByteSize)
    (hvalue : parseTarget algorithm text = some 0) :
    setTarget algorithm (some text) s = some (false, { s with target := 0 }) := by
  have hshort : ¬ text.utf8ByteSize < 4 := by omega
  simp only [setTarget, hshort, if_false, hvalue]

theorem setTarget_fault (hlong : 4 ≤ text.utf8ByteSize)
    (hvalue : parseTarget algorithm text = none) : setTarget algorithm (some text) s = none := by
  have hshort : ¬ text.utf8ByteSize < 4 := by omega
  simp only [setTarget, hshort, if_false, hvalue]

theorem setTarget_value {value : ℕ} (hlong : 4 ≤ text.utf8ByteSize)
    (hvalue : parseTarget algorithm text = some (value + 1)) :
    setTarget algorithm (some text) s =
      if rawTargetSize ≤ text.utf8ByteSize then some (false, { s with
        target := value + 1
        diff := toDiff (value + 1) })
      else some (true, { s with
        target := value + 1
        diff := toDiff (value + 1)
        rawTarget := text }) := by
  have hshort : ¬ text.utf8ByteSize < 4 := by omega
  simp only [setTarget, hshort, if_false, hvalue]

/-- For every algorithm, every text and every job. -/
theorem setTarget_total_atomic (algorithm : Algorithm) (target : Option String) (s : TargetFields) :
    TotalAtomic algorithm target s ↔ Settable algorithm target s := by
  cases target with
  | none =>
      refine iff_of_true ⟨false, s, rfl, by simp, fun _ => rfl⟩ ?_
      intro text h
      cases h
  | some text =>
      by_cases hshort : text.utf8ByteSize < 4
      · refine iff_of_true ⟨false, s, if_pos hshort, by simp, fun _ => rfl⟩ ?_
        intro text' htext hlong
        cases htext
        omega
      · have hlong : 4 ≤ text.utf8ByteSize := by omega
        have hsettable : Settable algorithm (some text) s ↔ ¬ IsZeroCompact algorithm text ∧
            (parseTarget algorithm text = some 0 → s.target = 0) ∧
            ∀ value ≠ 0, parseTarget algorithm text = some value →
              rawTargetSize ≤ text.utf8ByteSize → s.target = value ∧ s.diff = toDiff value :=
          ⟨fun h => h text rfl hlong, fun h _ htext _ => Option.some.inj htext ▸ h⟩
        rw [hsettable]
        match hvalue : parseTarget algorithm text with
        | none =>
            refine iff_of_false ?_ fun h => h.1 (parseTarget_eq_none.mp hvalue)
            rintro ⟨_, _, hresult, -⟩
            rw [setTarget_fault hlong hvalue] at hresult
            cases hresult
        | some 0 =>
            have hzero : ¬ IsZeroCompact algorithm text := by
              rw [← parseTarget_eq_none, hvalue]
              exact Option.some_ne_none 0
            constructor
            · rintro ⟨accepted, after, hresult, -, hsame⟩
              rw [setTarget_zero hlong hvalue] at hresult
              cases hresult
              refine ⟨hzero, fun _ => (congrArg TargetFields.target (hsame rfl)).symm, ?_⟩
              rintro value hne heq
              exact absurd (Option.some.inj heq).symm hne
            · rintro ⟨-, htarget, -⟩
              refine ⟨false, _, setTarget_zero hlong hvalue, by simp, fun _ => ?_⟩
              rw [← htarget rfl]
        | some (value + 1) =>
            have hzero : ¬ IsZeroCompact algorithm text := by
              rw [← parseTarget_eq_none, hvalue]
              exact Option.some_ne_none _
            have hset := setTarget_value (s := s) hlong hvalue
            split at hset
            · next hlarge =>
              constructor
              · rintro ⟨accepted, after, hresult, -, hsame⟩
                rw [hset] at hresult
                cases hresult
                refine ⟨hzero, by simp, fun v _ hv _ => ?_⟩
                cases hv
                exact ⟨(congrArg TargetFields.target (hsame rfl)).symm,
                  (congrArg TargetFields.diff (hsame rfl)).symm⟩
              · rintro ⟨-, -, hsame⟩
                obtain ⟨htarget, hdiff⟩ : s.target = value + 1 ∧ s.diff = toDiff (value + 1) :=
                  hsame _ (Nat.succ_ne_zero value) rfl hlarge
                refine ⟨false, _, hset, by simp, fun _ => ?_⟩
                rw [← hdiff, ← htarget]
            · next hfits =>
              refine iff_of_true ⟨true, _, hset, fun _ => ?_, by simp⟩ ⟨hzero, by simp, ?_⟩
              · exact ⟨Nat.succ_ne_zero value, rfl, rfl, hvalue⟩
              · intro v _ _ hlarge
                exact absurd hlarge hfits

/-- A pool that sends four zero bytes makes the call divide by zero. -/
theorem zero_target_divides_by_zero :
    ¬ ∀ algorithm target s, TotalAtomic algorithm target s := by
  intro h
  obtain ⟨_, _, hresult, -⟩ := h Algorithm.RX_0 (some "00000000") {}
  have hfault : setTarget Algorithm.RX_0 (some "00000000") {} = none := by decide +kernel
  cases hfault.symm.trans hresult

end SetTarget

end Job

namespace Miner

/-- The text of the compact target of a custom difficulty. -/
def compactTargetText (customDiff : ℕ) : String :=
  String.ofList (Hex.encode (littleEndianBytes 4 (0xFFFFFFFFFFFFFFFF / customDiff / 2 ^ 32)))

/-- The target that a miner is sent with a job. -/
def targetText (rawTarget : String) (job : Job) (m : State) : String :=
  if m.customDiff ≠ 0 ∧ m.customDiff < job.diff then compactTargetText m.customDiff else rawTarget

/-- The last eight bytes of the result, read as a number, are not above the target. -/
def Meets (target : ℕ) (request : JobResult) : Prop :=
  ∃ result bytes, request.result = some result ∧ result.length = 64 ∧
    Hex.decode (result.toList.drop 48) = some bytes ∧ littleEndian bytes ≤ target

/-- What a miner reads from its target agrees with the difficulty that it is checked against. -/
structure TargetAgrees (rawTarget : String) (job : Job) (m : State) (issued : ℕ) : Prop where
  parsed : ∀ s, ∃ fields,
    Job.setTarget job.algorithm (some (targetText rawTarget job m)) s = some (true, fields) ∧
      fields.diff = issued ∧
      ∀ request, Meets fields.target request → issued ≤ request.actualDiff
  bounded : issued ≤ job.diff
  upstream : ∀ request : JobResult, job.diff ≤ request.actualDiff → issued ≤ request.actualDiff

section CustomDiff

variable {c n : ℕ}

theorem div_div_self_of_small {d : ℕ} (hpos : 0 < d) (hsmall : d * (d + 1) ≤ n) :
    n / (n / d) = d := by
  have hquotient : d + 1 ≤ n / d := (Nat.le_div_iff_mul_le hpos).mpr (by rwa [Nat.mul_comm])
  have hrest : n < d * (n / d) + d := Nat.lt_mul_div_succ n hpos
  apply Nat.div_eq_of_lt_le (Nat.mul_div_le n d)
  calc n < d * (n / d) + d := hrest
    _ ≤ d * (n / d) + n / d := by omega
    _ = (d + 1) * (n / d) := by ring

theorem compact_eq (c : ℕ) : 0xFFFFFFFFFFFFFFFF / c / 2 ^ 32 = 0xFFFFFFFF / c := by
  rw [Nat.div_div_eq_div_mul, Nat.mul_comm, ← Nat.div_div_eq_div_mul]
  rfl

/-- The difficulty that is recorded: `c`, rounded up by the compact form. -/
theorem issuedCustomDiff_eq (hpos : 0 < c) (hlt : c < 2 ^ 32) :
    issuedCustomDiff c n = 0xFFFFFFFF / (0xFFFFFFFF / c) := by
  have hcompact : 0 < 0xFFFFFFFF / c := Nat.div_pos (by omega) hpos
  have hle : 0xFFFFFFFF / (0xFFFFFFFF / c) ≤ 0xFFFFFFFF := Nat.div_le_self _ _
  have hone : 0 < 0xFFFFFFFF / (0xFFFFFFFF / c) := Nat.div_pos (Nat.div_le_self _ _) hcompact
  have hsquare : 0xFFFFFFFF / (0xFFFFFFFF / c) * (0xFFFFFFFF / (0xFFFFFFFF / c) + 1) ≤
      0xFFFFFFFF * (0xFFFFFFFF + 1) := Nat.mul_le_mul hle (by omega)
  have hexpanded : 0xFFFFFFFFFFFFFFFF / (0xFFFFFFFF / (0xFFFFFFFF / c)) ≠ 0 := by
    rw [Ne, Nat.div_eq_zero_iff]
    omega
  simp only [issuedCustomDiff, compact_eq, hcompact.ne', ne_eq, not_false_eq_true, if_true,
    Job.toDiff, hexpanded, if_false]
  exact div_div_self_of_small hone (by omega)

/-- It stays below a bound exactly when the next number has a smaller compact target. -/
theorem issuedCustomDiff_le_iff (hpos : 0 < c) (hlt : c < 2 ^ 32) :
    issuedCustomDiff c n ≤ n ↔ 0xFFFFFFFF / (n + 1) < 0xFFFFFFFF / c := by
  have hcompact : 0 < 0xFFFFFFFF / c := Nat.div_pos (by omega) hpos
  rw [issuedCustomDiff_eq hpos hlt, ← Nat.lt_succ_iff, Nat.div_lt_iff_lt_mul hcompact,
    Nat.div_lt_iff_lt_mul (Nat.succ_pos n), Nat.mul_comm]

theorem expand_compact (hpos : 0 < c) (hlt : c < 2 ^ 32) :
    Job.expand (0xFFFFFFFF / c) =
      some (0xFFFFFFFFFFFFFFFF / (0xFFFFFFFF / (0xFFFFFFFF / c))) := by
  have hcompact : 0 < 0xFFFFFFFF / c := Nat.div_pos (by omega) hpos
  have hone : 0 < 0xFFFFFFFF / (0xFFFFFFFF / c) := Nat.div_pos (Nat.div_le_self _ _) hcompact
  simp only [Job.expand, hcompact.ne', hone.ne', if_false]

theorem utf8ByteSize_ofList {cs : List Char} (h : ∀ ch ∈ cs, ch.utf8Size = 1) :
    (String.ofList cs).utf8ByteSize = cs.length := by
  induction cs with
  | nil => rfl
  | cons ch rest ih =>
      rw [String.ofList_cons, String.utf8ByteSize_append, String.utf8ByteSize_singleton,
        h ch List.mem_cons_self, ih fun d hd => h d (List.mem_cons_of_mem _ hd), List.length_cons,
        Nat.add_comm]

theorem compactTargetText_size (c : ℕ) : (compactTargetText c).utf8ByteSize = 8 := by
  rw [compactTargetText, utf8ByteSize_ofList]
  · simp
  · intro ch hch
    obtain ⟨n, hn, rfl⟩ := Hex.mem_encode hch
    exact Hex.utf8Size_hexDigit n hn

theorem decode_compactTargetText (c : ℕ) :
    Hex.decode (compactTargetText c).toList = some (littleEndianBytes 4 (0xFFFFFFFF / c)) := by
  rw [compactTargetText, String.toList_ofList, Hex.decode_encode, compact_eq]

/-- Every algorithm but one expands the compact target again. -/
theorem parseTarget_compact {algorithm : Algorithm} (halgorithm : algorithm ≠ Algorithm.RX_YADA)
    (hpos : 0 < c) (hlt : c < 2 ^ 32) :
    Job.parseTarget algorithm (compactTargetText c) =
      some (0xFFFFFFFFFFFFFFFF / (0xFFFFFFFF / (0xFFFFFFFF / c))) := by
  have hbound : 0xFFFFFFFF / c < 256 ^ 4 := (Nat.div_le_self _ _).trans_lt (by norm_num)
  simp only [Job.parseTarget, halgorithm, if_false, decode_compactTargetText,
    length_littleEndianBytes, if_true, littleEndian_littleEndianBytes, Nat.mod_eq_of_lt hbound]
  exact expand_compact hpos hlt

/-- The other one reads eight digits as one number. -/
theorem parseTarget_yada (c : ℕ) :
    ∃ value < 2 ^ 32, Job.parseTarget Algorithm.RX_YADA (compactTargetText c) = some value := by
  refine ⟨CString.strtoull (compactTargetText c), ?_, by simp only [Job.parseTarget, if_true]⟩
  exact CString.strtoull_encode (length_littleEndianBytes 4 _)

/-- A hash that meets a target has at least the difficulty of the target. -/
theorem toDiff_le_actualDiff {target : ℕ} {request : JobResult} (h : Meets target request) :
    Job.toDiff target ≤ request.actualDiff := by
  obtain ⟨result, bytes, hresult, hlength, hbytes, hle⟩ := h
  have hdiff : request.actualDiff = if littleEndian bytes = 0 then 0xFFFFFFFFFFFFFFFF
      else Job.toDiff (littleEndian bytes) := by
    simp only [JobResult.actualDiff, hresult, Option.map_some, Option.getD_some,
      JobResult.difficulty, hlength, if_true, hbytes]
  rw [hdiff]
  unfold Job.toDiff
  split
  · exact Nat.zero_le _
  · split
    · exact Nat.div_le_self _ _
    · next hzero => exact Nat.div_le_div_left hle (Nat.pos_of_ne_zero hzero)

theorem deliver_issuedDiff (now : ℕ) (written : Bool) (job : Job) (blob : String) (m : State)
    (cache : Cache) : (deliver now written job blob m cache).1.issuedDiff = m.issuedDiff := by
  have hsend : (sendJob m).issuedDiff = m.issuedDiff := by
    unfold sendJob
    split <;> rfl
  unfold deliver
  dsimp only
  split
  · exact hsend
  · exact hsend

/-- The difficulty that a job is issued with. -/
theorem setJob_issuedDiff (now : ℕ) (issue : Issue) (job : Job) (extraNonce : ℤ) (m : State)
    (cache : Cache) (hcustom : m.customDiff ≠ 0) (hlt : m.customDiff < job.diff) :
    (setJob now issue job extraNonce m cache).1.issuedDiff =
      issuedCustomDiff m.customDiff job.diff := by
  unfold setJob
  rw [deliver_issuedDiff]
  exact if_pos ⟨hcustom, hlt⟩

end CustomDiff

/-- What a miner is sent agrees with what its shares are checked against exactly when its job is
not one for the algorithm with another encoding, and the compact form does not round the custom
difficulty past the difficulty of the job. -/
theorem custom_target_agrees (now : ℕ) (issue : Issue) (job : Job) (extraNonce : ℤ) (m : State)
    (cache : Cache) (rawTarget : String) (hfloor : 100 ≤ m.customDiff)
    (hceiling : m.customDiff < 2 ^ 31 - 1) (hlt : m.customDiff < job.diff) :
    TargetAgrees rawTarget job m (setJob now issue job extraNonce m cache).1.issuedDiff ↔
      job.algorithm ≠ Algorithm.RX_YADA ∧
        0xFFFFFFFF / (job.diff + 1) < 0xFFFFFFFF / m.customDiff := by
  have hpos : 0 < m.customDiff := by omega
  have hsmall : m.customDiff < 2 ^ 32 := by omega
  have htext : targetText rawTarget job m = compactTargetText m.customDiff :=
    if_pos ⟨hpos.ne', hlt⟩
  have hlong : 4 ≤ (compactTargetText m.customDiff).utf8ByteSize := by
    rw [compactTargetText_size]
    omega
  rw [setJob_issuedDiff now issue job extraNonce m cache hpos.ne' hlt]
  constructor
  · intro h
    refine ⟨?_, (issuedCustomDiff_le_iff hpos hsmall).mp h.bounded⟩
    intro hyada
    obtain ⟨fields, hset, hdiff, -⟩ := h.parsed {}
    rw [htext, hyada] at hset
    obtain ⟨value, hvalue, hparsed⟩ := parseTarget_yada m.customDiff
    have hissued : issuedCustomDiff m.customDiff job.diff ≤ 0xFFFFFFFF := by
      rw [issuedCustomDiff_eq hpos hsmall]
      exact Nat.div_le_self _ _
    cases value with
    | zero =>
        rw [Job.setTarget_zero hlong hparsed] at hset
        cases hset
    | succ value =>
        rw [Job.setTarget_value hlong hparsed, compactTargetText_size] at hset
        cases hset
        -- A number below 2^32 is too small a target.
        have hlarge : 2 ^ 32 ≤ Job.toDiff (value + 1) := by
          simp only [Job.toDiff, Nat.succ_ne_zero, if_false]
          rw [Nat.le_div_iff_mul_le (Nat.succ_pos value)]
          omega
        change Job.toDiff (value + 1) = issuedCustomDiff m.customDiff job.diff at hdiff
        omega
  · rintro ⟨hyada, hrounded⟩
    have hbounded := (issuedCustomDiff_le_iff hpos hsmall).mpr hrounded
    have hparsed := parseTarget_compact hyada hpos hsmall
    have hcompact : 0 < 0xFFFFFFFF / m.customDiff := Nat.div_pos (by omega) hpos
    have htarget : 0 < 0xFFFFFFFFFFFFFFFF / (0xFFFFFFFF / (0xFFFFFFFF / m.customDiff)) :=
      Nat.div_pos ((Nat.div_le_self _ _).trans (by omega))
        (Nat.div_pos (Nat.div_le_self _ _) hcompact)
    obtain ⟨value, hvalue⟩ := Nat.exists_eq_succ_of_ne_zero htarget.ne'
    have hdiff : Job.toDiff (value + 1) = issuedCustomDiff m.customDiff job.diff := by
      rw [← Nat.succ_eq_add_one, ← hvalue]
      simp only [issuedCustomDiff, compact_eq, hcompact.ne', ne_eq, not_false_eq_true, if_true]
    rw [hvalue] at hparsed
    refine ⟨fun s => ?_, hbounded, fun request hupstream => hbounded.trans hupstream⟩
    rw [htext, Job.setTarget_value hlong hparsed, compactTargetText_size]
    refine ⟨_, rfl, hdiff, fun request hmeets => ?_⟩
    rw [← hdiff]
    exact toDiff_le_actualDiff hmeets

def roundedJob : Job :=
  { algorithm := Algorithm.RX_0
    id := "a"
    diff := 1000004
    height := 1
    rawBlob := "" }

/-- A custom difficulty just below the difficulty of the job is rounded above it. -/
theorem custom_target_exceeds_job : ¬ ∀ now issue job extraNonce m cache rawTarget,
    100 ≤ m.customDiff → m.customDiff < 2 ^ 31 - 1 → m.customDiff < job.diff →
      TargetAgrees rawTarget job m (setJob now issue job extraNonce m cache).1.issuedDiff := by
  intro h
  have hbounded := (h 0 {} roundedJob (-1) { key := 1, rpcId := "", customDiff := 1000003 } {} ""
    (by decide) (by decide) (by decide)).bounded
  rw [setJob_issuedDiff _ _ _ _ _ _ (by decide) (by decide),
    issuedCustomDiff_le_iff (by decide) (by decide)] at hbounded
  exact absurd hbounded (by decide)

theorem custom_target_agrees_even : TargetAgrees ""
    { roundedJob with diff := 2000000 } { key := 1, rpcId := "", customDiff := 1000000 }
    (setJob 0 {} { roundedJob with diff := 2000000 } (-1)
      { key := 1, rpcId := "", customDiff := 1000000 } {}).1.issuedDiff :=
  (custom_target_agrees 0 {} { roundedJob with diff := 2000000 } (-1)
    { key := 1, rpcId := "", customDiff := 1000000 } {} "" (by decide) (by decide) (by decide)).mpr
    (by decide)

end Miner

end XmrigProxy
