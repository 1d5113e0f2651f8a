import Mathlib.Data.Rat.Defs
import Mathlib.Algebra.Order.Field.Rat
import Mathlib.Data.Nat.Notation
import Mathlib.Tactic.Common

/-!
# JSON documents and typed member access

Parsed documents keep their members in source order, and a member access reads the
first one with the given name. The typed accessors fall back to a default when the
member is missing or has another type, and treat an empty object like a missing one.
Numbers are exact: a parsed double is a finite rational.
-/

namespace XmrigProxy

inductive Json where
  | null
  | bool (b : Bool)
  | int (n : ℤ)
  | double (q : ℚ)
  | str (s : String)
  | arr (elements : List Json)
  | obj (members : List (String × Json))

namespace Json

def member : Json → String → Option Json
  | .obj members, key => members.lookup key
  | _, _ => none

def isObject : Json → Bool
  | .obj _ => true
  | _ => false

/-- The text up to its first terminator, as a C string reads it. -/
def cString (s : String) : String := String.ofList (s.toList.takeWhile (· ≠ '\x00'))

def getBool (doc : Json) (key : String) (default : Bool) : Bool :=
  match doc.member key with
  | some (.bool b) => b
  | _ => default

def getString (doc : Json) (key default : String) : String :=
  match doc.member key with
  | some (.str s) => cString s
  | _ => default

/-- An unsigned integer below the given bound. -/
def getBelow (bound : ℕ) (doc : Json) (key : String) (default : ℕ) : ℕ :=
  match doc.member key with
  | some (.int n) => if 0 ≤ n ∧ n < bound then n.toNat else default
  | _ => default

def getUint (doc : Json) (key : String) (default : ℕ) : ℕ := getBelow (2 ^ 32) doc key default

def getUint64 (doc : Json) (key : String) (default : ℕ) : ℕ := getBelow (2 ^ 64) doc key default

def getInt64 (doc : Json) (key : String) (default : ℤ) : ℤ :=
  match doc.member key with
  | some (.int n) => if -(2 ^ 63) ≤ n ∧ n < 2 ^ 63 then n else default
  | _ => default

def getArray (doc : Json) (key : String) : List Json :=
  match doc.member key with
  | some (.arr elements) => elements
  | _ => []

def getObject (doc : Json) (key : String) : Json :=
  match doc.member key with
  | some (.obj members) => .obj members
  | _ => .null

/-- A string member without an embedded terminator. -/
def text (doc : Json) (key : String) : Option String :=
  match doc.member key with
  | some (.str s) => if s.toList.contains '\x00' then none else some s
  | _ => none

/-- The numeric value of a number, of either representation. -/
def number : Json → Option ℚ
  | .int n => some n
  | .double q => some q
  | _ => none

end Json

end XmrigProxy
