import Mathlib.Data.List.Basic
import Mathlib.Data.Nat.Notation
import Mathlib.Tactic.Common

/-!
# JSON texts

A decoder of JSON texts, of which the values are left out: it returns what follows a value. Strings
have no control characters, a number is read as far as it goes, and the constants for what is not a
finite number are allowed. The decoder breaks down on a text, whatever follows, where values are
nested too deeply or an integer has too many digits.
-/

namespace XmrigProxy

namespace JsonText

def isSpace (c : Char) : Bool := c = ' ' || c = '\t' || c = '\n' || c = '\r'

def skipSpace (cs : List Char) : List Char := cs.dropWhile isSpace

def isHexDigit (c : Char) : Bool := c.isDigit || ('a' ≤ c && c ≤ 'f') || ('A' ≤ c && c ≤ 'F')

def isEscape (c : Char) : Bool := c ∈ ['"', '\\', '/', 'b', 'f', 'n', 'r', 't']

/-- The rest of a string, after its opening quote. -/
def string : List Char → Option (List Char)
  | [] => none
  | '"' :: rest => some rest
  | '\\' :: 'u' :: a :: b :: c :: d :: rest =>
      if isHexDigit a && isHexDigit b && isHexDigit c && isHexDigit d then string rest else none
  | '\\' :: c :: rest => if isEscape c then string rest else none
  | c :: rest => if c < ' ' then none else string rest

def integer : List Char → Option (List Char)
  | [] => none
  | c :: rest =>
      if c = '0' then some rest
      else if c.isDigit then some (rest.dropWhile Char.isDigit)
      else none

def digits : List Char → Option (List Char)
  | [] => none
  | c :: rest => if c.isDigit then some (rest.dropWhile Char.isDigit) else none

def fraction : List Char → List Char
  | '.' :: rest => (digits rest).getD ('.' :: rest)
  | cs => cs

def unsigned : List Char → List Char
  | '+' :: rest => rest
  | '-' :: rest => rest
  | cs => cs

def exponent : List Char → List Char
  | c :: rest => if c = 'e' ∨ c = 'E' then (digits (unsigned rest)).getD (c :: rest) else c :: rest
  | [] => []

/-- A fraction or an exponent without digits is not part of the number. -/
def number (cs : List Char) : Option (List Char) :=
  (integer cs).map fun rest => exponent (fraction rest)

def constant (name : String) (cs : List Char) : Option (List Char) :=
  if name.toList <+: cs then some (cs.drop name.length) else none

/-- What an interpreter of the language allows: the digits of an integer, and the values that are
begun and not yet complete. -/
structure Limits where
  maxDigits : ℕ
  frames : ℕ

/-- Why a text has no value. -/
inductive Failure where
  | invalid
  | breakdown
  deriving DecidableEq, Repr

def found : Option (List Char) → Except Failure (List Char)
  | some rest => .ok rest
  | none => .error .invalid

section Decoder

variable (limits : Limits)

/-- A number without a fraction or an exponent is converted to an integer. -/
def converted (cs : List Char) : Except Failure (List Char) :=
  match number cs with
  | none => .error .invalid
  | some rest =>
      if integer cs = some rest ∧ limits.maxDigits < cs.length - rest.length then .error .breakdown
      else .ok rest

mutual

/-- `depth` values are begun. Every call but those for the constants reads a character or hands on
to one that does. -/
def value : ℕ → ℕ → List Char → Except Failure (List Char)
  | 0, _, _ => .error .invalid
  | _, _, [] => .error .invalid
  | fuel + 1, depth, c :: rest =>
      if c = '"' then found (string rest)
      else if c = '{' then
        if depth < limits.frames then members fuel (depth + 1) true (skipSpace rest)
        else .error .breakdown
      else if c = '[' then
        if depth < limits.frames then elements fuel (depth + 1) true (skipSpace rest)
        else .error .breakdown
      else if c = '-' then
        if (number rest).isSome then converted limits rest else found (constant "Infinity" rest)
      else if (number (c :: rest)).isSome then converted limits (c :: rest)
      else found (((constant "null" (c :: rest)).or (constant "true" (c :: rest))).or
        (((constant "false" (c :: rest)).or (constant "NaN" (c :: rest))).or
          (constant "Infinity" (c :: rest))))

/-- The members that are left; an object may end before its first one. -/
def members : ℕ → ℕ → Bool → List Char → Except Failure (List Char)
  | 0, _, _, _ => .error .invalid
  | _, _, _, [] => .error .invalid
  | fuel + 1, depth, first, c :: rest =>
      if c = '}' ∧ first then .ok rest
      else if c ≠ '"' then .error .invalid
      else
        (found (string rest)).bind fun rest => match skipSpace rest with
        | ':' :: rest => (value fuel depth (skipSpace rest)).bind fun rest =>
          match skipSpace rest with
          | '}' :: rest => .ok rest
          | ',' :: rest => members fuel depth false (skipSpace rest)
          | _ => .error .invalid
        | _ => .error .invalid

def elements : ℕ → ℕ → Bool → List Char → Except Failure (List Char)
  | 0, _, _, _ => .error .invalid
  | fuel + 1, depth, first, cs =>
      if cs.head? = some ']' ∧ first then .ok cs.tail
      else (value fuel depth cs).bind fun rest => match skipSpace rest with
        | ']' :: rest => .ok rest
        | ',' :: rest => elements fuel depth false (skipSpace rest)
        | _ => .error .invalid

end

/-- A text is one value, between white space. A value needs fuel for itself and for what is inside
it, which is shorter by a character. -/
def loads (cs : List Char) : Except Failure Unit :=
  (value limits (2 * cs.length + 1) 0 (skipSpace cs)).bind fun rest =>
    if skipSpace rest = [] then .ok () else .error .invalid

end Decoder

def isObject (cs : List Char) : Bool := (skipSpace cs).head? = some '{'

end JsonText

end XmrigProxy
