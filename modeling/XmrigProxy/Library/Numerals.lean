import Mathlib.Data.List.Basic
import Mathlib.Data.Rat.Defs
import Mathlib.Algebra.Order.Field.Rat
import Mathlib.Data.Nat.Notation
import Mathlib.Tactic.Common

/-!
# Decimal numerals

Numbers printed in decimal, and a liberal reader of them: surrounding white space, a sign, and
single underscores between digits are allowed, and a real number may have a fraction and an
exponent. The reader knows digits and white space beyond ASCII, and takes no integer of too many
digits. What is printed is read back.
-/

namespace XmrigProxy

namespace Numerals

/-- The characters beyond ASCII that are white space, and those that are decimal digits. -/
structure Alphabet where
  space : Char → Bool
  decimal : Char → Option (Fin 10)

/-- The digit or the space that a character stands for; one that stands for none is no part of a
number. -/
def Alphabet.ascii (alphabet : Alphabet) (c : Char) : Char :=
  if c.toNat < 127 then c
  else if alphabet.space c then ' '
  else match alphabet.decimal c with
    | some d => Nat.digitChar d
    | none => '?'

def isSpace (c : Char) : Bool := c = ' ' || ('\t' ≤ c && c ≤ '\r')

def strip (cs : List Char) : List Char := ((cs.dropWhile isSpace).reverse.dropWhile isSpace).reverse

def digitRun : Bool → List Char → Option (List Char)
  | afterDigit, [] => if afterDigit then some [] else none
  | afterDigit, c :: rest =>
      if c.isDigit then (digitRun true rest).map (c :: ·)
      else if c = '_' ∧ afterDigit then digitRun false rest
      else none

def sign : List Char → Bool × List Char
  | '-' :: rest => (true, rest)
  | '+' :: rest => (false, rest)
  | cs => (false, cs)

def value (negative : Bool) (digits : List Char) : ℤ :=
  if negative then -(Nat.ofDigitChars 10 digits 0 : ℤ) else Nat.ofDigitChars 10 digits 0

def signed (cs : List Char) : Option ℤ := (digitRun false (sign cs).2).map (value (sign cs).1)

/-- The digits that are read at most, leading zeros included. -/
def maxDigits : ℕ := 4300

variable (alphabet : Alphabet)

def readInt (cs : List Char) : Option ℤ :=
  let cs := strip (cs.map alphabet.ascii)
  (digitRun false (sign cs).2).bind fun digits =>
    if digits.length ≤ maxDigits then some (value (sign cs).1 digits) else none

def printInt : ℤ → List Char
  | .ofNat n => Nat.toDigits 10 n
  | .negSucc n => '-' :: Nat.toDigits 10 (n + 1)

/-- A real number as it was written, before it is rounded to a double. -/
inductive Real where
  | nan
  | infinite (negative : Bool)
  | decimal (negative : Bool) (digits : ℕ) (exponent : ℤ)

namespace Real

/-- What is not smaller than half a step above the largest double becomes infinite. -/
def isFinite : Real → Bool
  | .decimal _ digits exponent => (digits : ℚ) * 10 ^ exponent < 2 ^ 1024 - 2 ^ 970
  | _ => false

/-- What is at most half the smallest double becomes a zero, which is not negative. -/
def isNegative : Real → Bool
  | .decimal negative digits exponent => negative && 1 / 2 ^ 1075 < (digits : ℚ) * 10 ^ exponent
  | .infinite negative => negative
  | .nan => false

end Real

/-- The digits on one side of the point may be missing. -/
def optionalRun (cs : List Char) : Option (List Char) :=
  if cs = [] then some [] else digitRun false cs

def unsignedReal (negative : Bool) (cs : List Char) : Option Real :=
  if cs = "inf".toList ∨ cs = "infinity".toList then some (.infinite negative)
  else if cs = "nan".toList then some .nan
  else
    let mantissa := cs.takeWhile (· ≠ 'e')
    let tail := cs.dropWhile (· ≠ 'e')
    (if tail = [] then some 0 else signed tail.tail).bind fun exponent =>
    (optionalRun (mantissa.takeWhile (· ≠ '.'))).bind fun whole =>
    (optionalRun (mantissa.dropWhile (· ≠ '.')).tail).bind fun fraction =>
    if whole ++ fraction = [] then none
    else some (.decimal negative (Nat.ofDigitChars 10 (whole ++ fraction) 0)
      (exponent - fraction.length))

def readReal (cs : List Char) : Option Real :=
  let cs := strip (cs.map alphabet.ascii)
  unsignedReal (sign cs).1 ((sign cs).2.map Char.toLower)

section RoundTrip

variable {alphabet : Alphabet} {cs : List Char}

theorem toNat_of_isDigit {c : Char} (hc : c.isDigit = true) : 48 ≤ c.toNat ∧ c.toNat ≤ 57 := by
  unfold Char.isDigit at hc
  simp only [Bool.and_eq_true, decide_eq_true_eq, UInt32.le_iff_toNat_le] at hc
  exact hc

theorem isSpace_of_isDigit {c : Char} (hc : c.isDigit = true) : isSpace c = false := by
  have hdigit := toNat_of_isDigit hc
  have hlater : ¬ c ≤ '\r' := by
    rw [Char.le_def, UInt32.le_iff_toNat_le]
    have hreturn : '\r'.val.toNat = 13 := rfl
    change ¬ c.toNat ≤ _
    omega
  have hother : c ≠ ' ' := by
    rintro rfl
    exact absurd hc (by decide)
  simp [isSpace, hother, hlater]

/-- Digits and signs stand for themselves. -/
theorem map_ascii (h : ∀ c ∈ cs, c = '-' ∨ c.isDigit = true) : cs.map alphabet.ascii = cs := by
  have hsame : ∀ c ∈ cs, alphabet.ascii c = c := by
    intro c hc
    apply if_pos
    rcases h c hc with rfl | hdigit
    · decide
    · have := toNat_of_isDigit hdigit
      omega
  rw [List.map_congr_left hsame, List.map_id']

theorem strip_eq_self (h : ∀ c ∈ cs, isSpace c = false) : strip cs = cs := by
  have hdrop : ∀ ds : List Char, (∀ c ∈ ds, isSpace c = false) → ds.dropWhile isSpace = ds := by
    intro ds hds
    cases ds with
    | nil => rfl
    | cons d rest => rw [List.dropWhile_cons, hds d List.mem_cons_self, if_neg Bool.false_ne_true]
  unfold strip
  rw [hdrop cs h, hdrop cs.reverse fun c hc => h c (List.mem_reverse.mp hc), List.reverse_reverse]

theorem digitRun_eq_self {afterDigit : Bool} (hdigits : ∀ c ∈ cs, c.isDigit = true)
    (hsome : afterDigit = true ∨ cs ≠ []) : digitRun afterDigit cs = some cs := by
  induction cs generalizing afterDigit with
  | nil =>
      rcases hsome with rfl | hne
      · rfl
      · exact absurd rfl hne
  | cons c rest ih =>
      unfold digitRun
      rw [if_pos (hdigits c List.mem_cons_self),
        ih (fun c hc => hdigits c (List.mem_cons_of_mem _ hc)) (Or.inl rfl)]
      rfl

theorem sign_cons {c : Char} (hminus : c ≠ '-') (hplus : c ≠ '+') (rest : List Char) :
    sign (c :: rest) = (false, c :: rest) := by
  unfold sign
  split
  · next heq => exact absurd (List.cons.inj heq).1 hminus
  · next heq => exact absurd (List.cons.inj heq).1 hplus
  · rfl

theorem sign_digits {c : Char} (hc : c.isDigit = true) (rest : List Char) :
    sign (c :: rest) = (false, c :: rest) := by
  apply sign_cons
  · rintro rfl
    exact absurd hc (by decide)
  · rintro rfl
    exact absurd hc (by decide)

theorem isDigit_toDigits (n : ℕ) : ∀ c ∈ Nat.toDigits 10 n, c.isDigit = true := fun _ hc =>
  Nat.isDigit_of_mem_toDigits (by decide) (by decide) hc

/-- A number is never printed as the empty text. -/
theorem printInt_ne_nil (n : ℤ) : printInt n ≠ [] := by
  cases n with
  | ofNat n => exact Nat.toDigits_ne_nil
  | negSucc n => exact List.cons_ne_nil _ _

theorem mem_printInt {n : ℤ} {c : Char} (hc : c ∈ printInt n) : c = '-' ∨ c.isDigit = true := by
  cases n with
  | ofNat n => exact Or.inr (isDigit_toDigits n c hc)
  | negSucc n =>
      rcases List.mem_cons.mp hc with rfl | hc
      · exact Or.inl rfl
      · exact Or.inr (isDigit_toDigits (n + 1) c hc)

theorem strip_printInt (n : ℤ) : strip ((printInt n).map alphabet.ascii) = printInt n := by
  rw [map_ascii fun c hc => mem_printInt hc]
  apply strip_eq_self
  intro c hc
  rcases mem_printInt hc with rfl | hdigit
  · rfl
  · exact isSpace_of_isDigit hdigit

theorem sign_printInt (n : ℤ) : sign (printInt n) = (decide (n < 0), Nat.toDigits 10 n.natAbs) := by
  cases n with
  | ofNat n =>
      change sign (Nat.toDigits 10 n) = (false, Nat.toDigits 10 n)
      rcases hds : Nat.toDigits 10 n with _ | ⟨c, rest⟩
      · rfl
      · exact sign_digits (isDigit_toDigits n c (hds ▸ List.mem_cons_self)) rest
  | negSucc n =>
      rw [decide_eq_true (Int.negSucc_lt_zero n)]
      rfl

/-- What is printed is read back, unless it has too many digits. -/
theorem readInt_printInt (n : ℤ) : readInt alphabet (printInt n) =
    if (Nat.toDigits 10 n.natAbs).length ≤ maxDigits then some n else none := by
  have hrun : digitRun false (Nat.toDigits 10 n.natAbs) = some (Nat.toDigits 10 n.natAbs) :=
    digitRun_eq_self (isDigit_toDigits _) (Or.inr Nat.toDigits_ne_nil)
  have hvalue : value (decide (n < 0)) (Nat.toDigits 10 n.natAbs) = n := by
    unfold value
    rw [Nat.ofDigitChars_ten_toDigits]
    by_cases hnegative : n < 0
    · rw [if_pos (decide_eq_true hnegative)]
      omega
    · rw [if_neg (by simpa using hnegative)]
      omega
  unfold readInt
  dsimp only
  rw [strip_printInt, sign_printInt]
  dsimp only
  rw [hrun, Option.bind_some, hvalue]

theorem readInt_small {n : ℤ} (h : n.natAbs < 2 ^ 64) :
    readInt alphabet (printInt n) = some n := by
  have hfew : (Nat.toDigits 10 n.natAbs).length ≤ 20 :=
    (Nat.length_toDigits_le_iff (by decide) (by decide)).mpr (h.trans (by decide))
  rw [readInt_printInt, if_pos (hfew.trans (by decide))]

theorem ofDigitChars_lt (hdigits : ∀ c ∈ cs, c.isDigit = true) :
    Nat.ofDigitChars 10 cs 0 < 10 ^ cs.length := by
  have hgeneral : ∀ init : ℕ, Nat.ofDigitChars 10 cs init < (init + 1) * 10 ^ cs.length := by
    induction cs with
    | nil =>
        intro init
        rw [Nat.ofDigitChars_nil, List.length_nil, Nat.pow_zero]
        omega
    | cons c rest ih =>
        intro init
        have hdigit : c.toNat - '0'.toNat < 10 := by
          have hc := toNat_of_isDigit (hdigits c List.mem_cons_self)
          have hzero : '0'.toNat = 48 := rfl
          omega
        have hrest := ih (fun x hx => hdigits x (List.mem_cons_of_mem _ hx))
          (10 * init + (c.toNat - '0'.toNat))
        rw [Nat.ofDigitChars_cons, List.length_cons, Nat.pow_succ]
        apply lt_of_lt_of_le hrest
        rw [Nat.mul_comm (10 ^ rest.length) 10, ← Nat.mul_assoc]
        apply Nat.mul_le_mul_right
        omega
  have hzero := hgeneral 0
  omega

end RoundTrip

section Padded

/-- Numerals of one width are ordered as texts as they are as numbers. -/
def zfill (width : ℕ) (cs : List Char) : List Char := List.replicate (width - cs.length) '0' ++ cs

theorem lt_of_ofDigitChars_lt {xs ys : List Char} (hxs : ∀ c ∈ xs, c.isDigit = true)
    (hys : ∀ c ∈ ys, c.isDigit = true) (hlength : xs.length = ys.length)
    (h : Nat.ofDigitChars 10 xs 0 < Nat.ofDigitChars 10 ys 0) : xs < ys := by
  induction xs generalizing ys with
  | nil =>
      obtain rfl : ys = [] := List.length_eq_zero_iff.mp hlength.symm
      exact absurd h (lt_irrefl _)
  | cons c xs ih =>
      rcases ys with - | ⟨d, ys⟩
      · cases hlength
      · have hsame : xs.length = ys.length := Nat.succ.inj hlength
        have hc := hxs c List.mem_cons_self
        have hd := hys d List.mem_cons_self
        have hlow := ofDigitChars_lt fun x hx => hxs x (List.mem_cons_of_mem _ hx)
        have hhigh := ofDigitChars_lt fun x hx => hys x (List.mem_cons_of_mem _ hx)
        rw [Nat.ofDigitChars_cons, Nat.ofDigitChars_cons, Nat.ofDigitChars_eq_ofDigitChars_zero,
          @Nat.ofDigitChars_eq_ofDigitChars_zero ys, hsame, Nat.mul_zero, Nat.zero_add,
          Nat.zero_add] at h
        rw [hsame] at hlow
        rw [List.cons_lt_cons_iff]
        rcases Nat.lt_trichotomy c.toNat d.toNat with hlt | heq | hgt
        · exact Or.inl hlt
        · obtain rfl := Char.toNat_inj.mp heq
          refine Or.inr ⟨rfl, ih (fun x hx => hxs x (List.mem_cons_of_mem _ hx))
            (fun x hx => hys x (List.mem_cons_of_mem _ hx)) hsame ?_⟩
          omega
        · have hdigit : d.toNat - '0'.toNat + 1 ≤ c.toNat - '0'.toNat := by
            have hdigit := toNat_of_isDigit hd
            have hzero : '0'.toNat = 48 := rfl
            omega
          have hscale := Nat.mul_le_mul_left (10 ^ ys.length) hdigit
          rw [Nat.mul_add, Nat.mul_one] at hscale
          omega

theorem length_toDigits_le {width n : ℕ} (h : n < 10 ^ width) (hwidth : 0 < width) :
    (Nat.toDigits 10 n).length ≤ width :=
  (Nat.length_toDigits_le_iff (by decide) hwidth).mpr h

theorem zfill_lt {width a b : ℕ} (hwidth : 0 < width) (hb : b < 10 ^ width) (h : a < b) :
    zfill width (Nat.toDigits 10 a) < zfill width (Nat.toDigits 10 b) := by
  have hdigits : ∀ n, ∀ c ∈ zfill width (Nat.toDigits 10 n), c.isDigit = true := by
    intro n c hc
    rcases List.mem_append.mp hc with hc | hc
    · rw [List.eq_of_mem_replicate hc]
      rfl
    · exact Nat.isDigit_of_mem_toDigits (by decide) (le_refl 10) hc
  have hlength : ∀ n, n < 10 ^ width → (zfill width (Nat.toDigits 10 n)).length = width := by
    intro n hn
    have hle := length_toDigits_le hn hwidth
    rw [zfill, List.length_append, List.length_replicate]
    omega
  have hvalue : ∀ n, Nat.ofDigitChars 10 (zfill width (Nat.toDigits 10 n)) 0 = n := by
    intro n
    rw [zfill, Nat.ofDigitChars_append, Nat.ofDigitChars_replicate_zero, Nat.mul_zero,
      Nat.ofDigitChars_ten_toDigits]
  refine lt_of_ofDigitChars_lt (hdigits a) (hdigits b) ?_ ?_
  · rw [hlength a (h.trans hb), hlength b hb]
  · rw [hvalue, hvalue]
    exact h

end Padded

end Numerals

end XmrigProxy
