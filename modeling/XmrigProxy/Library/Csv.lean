import XmrigProxy.Library.Utf8
import Mathlib.Algebra.Order.BigOperators.Group.List
import Mathlib.Algebra.Order.Group.Nat
import Mathlib.Data.List.Basic
import Mathlib.Data.Nat.Notation
import Mathlib.Order.Basic
import Mathlib.Tactic.Common

/-!
# Comma-separated values

The grammar of one record, over any alphabet with the four special characters, a writer that quotes
what has to be quoted, and a reader with a bound on the length of a field. What the grammar derives
is read back, as long as no field is longer than the bound, so a record has one meaning only.
-/

namespace XmrigProxy

namespace Csv

structure Alphabet (α : Type*) where
  quote : α
  comma : α
  cr : α
  lf : α
  comma_ne_quote : comma ≠ quote
  cr_ne_quote : cr ≠ quote
  lf_ne_quote : lf ≠ quote
  cr_ne_comma : cr ≠ comma
  lf_ne_comma : lf ≠ comma

variable {α : Type*} (alphabet : Alphabet α)

/-! ### Grammar -/

def Alphabet.IsText (c : α) : Prop :=
  c ≠ alphabet.quote ∧ c ≠ alphabet.comma ∧ c ≠ alphabet.cr ∧ c ≠ alphabet.lf

/-- What stands between the quotes of a field. -/
inductive Escaped : List α → List α → Prop
  | nil : Escaped [] []
  | char {c : α} {raw value : List α} (hc : c ≠ alphabet.quote) (hrest : Escaped raw value) :
      Escaped (c :: raw) (c :: value)
  | quote {raw value : List α} (hrest : Escaped raw value) :
      Escaped (alphabet.quote :: alphabet.quote :: raw) (alphabet.quote :: value)

inductive Field : List α → List α → Prop
  | plain {value : List α} (htext : ∀ c ∈ value, alphabet.IsText c) : Field value value
  | escaped {raw value : List α} (hraw : Escaped alphabet raw value) :
      Field (alphabet.quote :: (raw ++ [alphabet.quote])) value

/-- One or more fields, with commas between them. -/
inductive Record : List α → List (List α) → Prop
  | last {raw value : List α} (hfield : Field alphabet raw value) : Record raw [value]
  | cons {raw value rest : List α} {values : List (List α)} (hfield : Field alphabet raw value)
      (hrest : Record rest values) : Record (raw ++ alphabet.comma :: rest) (value :: values)

/-! ### Writer -/

variable [DecidableEq α]

def writeField (value : List α) : List α :=
  if alphabet.comma ∈ value ∨ alphabet.quote ∈ value then
    alphabet.quote ::
      (value.flatMap fun c => if c =
        alphabet.quote then [alphabet.quote, alphabet.quote] else [c]) ++ [alphabet.quote]
  else value

def writeLine : List (List α) → List α
  | [] => []
  | [value] => writeField alphabet value
  | value :: rest => writeField alphabet value ++ alphabet.comma :: writeLine rest

/-! ### Reader -/

inductive State where
  | startRecord
  | startField
  | inField
  | inQuotedField
  | quoteInQuotedField
  | eatNewline
  deriving DecidableEq, Repr

inductive Failure where
  | fieldLimit
  | delimiterExpected
  | newlineInField
  | unexpectedEnd
  deriving DecidableEq, Repr

structure Reader (α : Type*) where
  state : State := .startRecord
  field : List α := []
  fields : List (List α) := []

def addChar (limit : ℕ) (c : α) (state : State) (r : Reader α) : Except Failure (Reader α) :=
  if limit ≤ r.field.length then .error .fieldLimit
  else .ok { r with
    state
    field := r.field ++ [c] }

def saveField (state : State) (r : Reader α) : Reader α :=
  { state
    field := []
    fields := r.fields ++ [r.field] }

def isNewline (c : α) : Bool := c = alphabet.lf || c = alphabet.cr

def processField (limit : ℕ) (r : Reader α) (c : α) : Except Failure (Reader α) :=
  if isNewline alphabet c then .ok (saveField .eatNewline r)
  else if c = alphabet.quote then .ok { r with state := .inQuotedField }
  else if c = alphabet.comma then .ok (saveField .startField r)
  else addChar limit c .inField r

def process (limit : ℕ) (r : Reader α) (c : α) : Except Failure (Reader α) :=
  match r.state with
  | .startRecord =>
      if isNewline alphabet c then .ok { r with state := .eatNewline }
      else processField alphabet limit r c
  | .startField => processField alphabet limit r c
  | .inField =>
      if isNewline alphabet c then .ok (saveField .eatNewline r)
      else if c = alphabet.comma then .ok (saveField .startField r)
      else addChar limit c .inField r
  | .inQuotedField =>
      if c = alphabet.quote then .ok { r with state := .quoteInQuotedField }
      else addChar limit c .inQuotedField r
  | .quoteInQuotedField =>
      if c = alphabet.quote then addChar limit c .inQuotedField r
      else if c = alphabet.comma then .ok (saveField .startField r)
      else if isNewline alphabet c then .ok (saveField .eatNewline r)
      else .error .delimiterExpected
  | .eatNewline => if isNewline alphabet c then .ok r else .error .newlineInField

/-- The end of the only line. -/
def finish (r : Reader α) : Except Failure (List (List α)) :=
  match r.state with
  | .startRecord => .ok []
  | .inQuotedField => .error .unexpectedEnd
  | .eatNewline => .ok r.fields
  | _ => .ok (r.fields ++ [r.field])

def scan (limit : ℕ) : List α → Reader α → Except Failure (Reader α)
  | [], r => .ok r
  | c :: rest, r => match process alphabet limit r c with
    | .error e => .error e
    | .ok r => scan limit rest r

def readFrom (limit : ℕ) (line : List α) (r : Reader α) : Except Failure (List (List α)) :=
  match scan alphabet limit line r with
  | .error e => .error e
  | .ok r => finish r

def readLine (limit : ℕ) (line : List α) : Except Failure (List (List α)) :=
  readFrom alphabet limit line {}

section RoundTrip

variable {alphabet} {limit : ℕ} {fields values : List (List α)} {raw value : List α}

theorem isNewline_eq_false {c : α} (hcr : c ≠ alphabet.cr) (hlf : c ≠ alphabet.lf) :
    isNewline alphabet c = false := by
  unfold isNewline
  rw [decide_eq_false hcr, decide_eq_false hlf]
  rfl

theorem escaped_flatMap (value : List α) : Escaped alphabet
    (value.flatMap fun c => if c = alphabet.quote then [alphabet.quote, alphabet.quote] else [c])
    value := by
  induction value with
  | nil => exact .nil
  | cons c rest ih =>
      rw [List.flatMap_cons]
      by_cases hquote : c = alphabet.quote
      · subst hquote
        rw [if_pos rfl]
        exact .quote ih
      · rw [if_neg hquote]
        exact .char hquote ih

theorem field_writeField (hlines : ∀ c ∈ value, c ≠ alphabet.cr ∧ c ≠ alphabet.lf) :
    Field alphabet (writeField alphabet value) value := by
  unfold writeField
  by_cases hquoted : alphabet.comma ∈ value ∨ alphabet.quote ∈ value
  · rw [if_pos hquoted]
    exact .escaped (escaped_flatMap value)
  · rw [if_neg hquoted]
    rw [not_or] at hquoted
    exact .plain fun c hc => ⟨fun heq => hquoted.2 (heq ▸ hc), fun heq => hquoted.1 (heq ▸ hc),
      hlines c hc⟩

/-- What the writer writes is a record of what it was given. -/
theorem record_writeLine (hnonempty : values ≠ [])
    (hlines : ∀ value ∈ values, ∀ c ∈ value, c ≠ alphabet.cr ∧ c ≠ alphabet.lf) :
    Record alphabet (writeLine alphabet values) values := by
  induction values with
  | nil => exact absurd rfl hnonempty
  | cons value rest ih =>
      have hfield := field_writeField (hlines value List.mem_cons_self)
      cases rest with
      | nil => exact .last hfield
      | cons next rest =>
          exact .cons hfield (ih (List.cons_ne_nil next rest) fun x hx =>
            hlines x (List.mem_cons_of_mem _ hx))

theorem mem_writeField {c : α} (hc : c ∈ writeField alphabet value) :
    c = alphabet.quote ∨ c ∈ value := by
  unfold writeField at hc
  split at hc
  · rcases List.mem_append.mp hc with hc | hc
    · rcases List.mem_cons.mp hc with rfl | hc
      · exact Or.inl rfl
      · obtain ⟨x, hx, hc⟩ := List.mem_flatMap.mp hc
        by_cases hquote : x = alphabet.quote
        · rw [if_pos hquote] at hc
          simp only [List.mem_cons, List.not_mem_nil, or_false, or_self] at hc
          exact Or.inl hc
        · rw [if_neg hquote] at hc
          exact Or.inr (List.mem_singleton.mp hc ▸ hx)
    · exact Or.inl (List.mem_singleton.mp hc)
  · exact Or.inr hc

theorem mem_writeLine {c : α} (hc : c ∈ writeLine alphabet values) :
    c = alphabet.quote ∨ c = alphabet.comma ∨ ∃ value ∈ values, c ∈ value := by
  induction values with
  | nil => exact absurd hc List.not_mem_nil
  | cons value rest ih =>
      have hfield : c ∈ writeField alphabet value →
          c = alphabet.quote ∨ c = alphabet.comma ∨ ∃ x ∈ value :: rest, c ∈ x := by
        intro hc
        rcases mem_writeField hc with hc | hc
        · exact Or.inl hc
        · exact Or.inr (Or.inr ⟨value, List.mem_cons_self, hc⟩)
      cases rest with
      | nil => exact hfield hc
      | cons next rest =>
          rcases List.mem_append.mp hc with hc | hc
          · exact hfield hc
          rcases List.mem_cons.mp hc with hc | hc
          · exact Or.inr (Or.inl hc)
          rcases ih hc with hc | hc | ⟨x, hx, hc⟩
          · exact Or.inl hc
          · exact Or.inr (Or.inl hc)
          · exact Or.inr (Or.inr ⟨x, List.mem_cons_of_mem _ hx, hc⟩)

theorem scan_cons (c : α) (rest : List α) (r : Reader α) : scan alphabet limit (c :: rest) r =
    match process alphabet limit r c with
    | .error e => .error e
    | .ok r => scan alphabet limit rest r := rfl

theorem scan_append (xs ys : List α) (r : Reader α) : scan alphabet limit (xs ++ ys) r =
    match scan alphabet limit xs r with
    | .error e => .error e
    | .ok r => scan alphabet limit ys r := by
  induction xs generalizing r with
  | nil => rfl
  | cons c xs ih =>
      rw [List.cons_append, scan_cons, scan_cons]
      cases process alphabet limit r c with
      | error e => rfl
      | ok r => exact ih r

/-- Plain characters are appended until the field is full. -/
theorem scan_inField {p : List α} (hp : p.length ≤ limit) (cs : List α)
    (htext : ∀ c ∈ cs, alphabet.IsText c) :
    scan alphabet limit cs ⟨.inField, p, fields⟩ =
      if p.length + cs.length ≤ limit then .ok ⟨.inField, p ++ cs, fields⟩
      else .error .fieldLimit := by
  induction cs generalizing p with
  | nil =>
      rw [List.length_nil, Nat.add_zero, if_pos hp, List.append_nil]
      rfl
  | cons c cs ih =>
      obtain ⟨hquote, hcomma, hcr, hlf⟩ := htext c List.mem_cons_self
      have hrest : ∀ c ∈ cs, alphabet.IsText c := fun c hc => htext c (List.mem_cons_of_mem _ hc)
      have hstep : process alphabet limit ⟨.inField, p, fields⟩ c =
          addChar limit c .inField ⟨.inField, p, fields⟩ := by
        unfold process
        dsimp only
        rw [isNewline_eq_false hcr hlf, if_neg Bool.false_ne_true, if_neg hcomma]
      rw [scan_cons, hstep]
      unfold addChar
      dsimp only
      by_cases hfull : limit ≤ p.length
      · rw [if_pos hfull, if_neg]
        rw [List.length_cons]
        omega
      · rw [if_neg hfull]
        dsimp only
        rw [ih (by rw [List.length_append, List.length_singleton]; omega) hrest]
        rw [List.length_append, List.length_singleton, List.length_cons, List.append_assoc,
          Nat.add_assoc, Nat.add_comm 1]
        rfl

/-- Inside quotes every character is appended, and a doubled quote is one. -/
theorem scan_inQuotedField (hraw : Escaped alphabet raw value) {p : List α}
    (hp : p.length ≤ limit) :
    scan alphabet limit raw ⟨.inQuotedField, p, fields⟩ =
      if p.length + value.length ≤ limit then .ok ⟨.inQuotedField, p ++ value, fields⟩
      else .error .fieldLimit := by
  induction hraw generalizing p with
  | nil =>
      rw [List.length_nil, Nat.add_zero, if_pos hp, List.append_nil]
      rfl
  | @char c raw value hc hrest ih =>
      have hstep : process alphabet limit ⟨.inQuotedField, p, fields⟩ c =
          addChar limit c .inQuotedField ⟨.inQuotedField, p, fields⟩ := by
        unfold process
        dsimp only
        rw [if_neg hc]
      rw [scan_cons, hstep]
      unfold addChar
      dsimp only
      by_cases hfull : limit ≤ p.length
      · rw [if_pos hfull, if_neg]
        rw [List.length_cons]
        omega
      · rw [if_neg hfull]
        dsimp only
        rw [ih (by rw [List.length_append, List.length_singleton]; omega)]
        rw [List.length_append, List.length_singleton, List.length_cons, List.append_assoc,
          Nat.add_assoc, Nat.add_comm 1]
        rfl
  | @quote raw value hrest ih =>
      have hopen : process alphabet limit ⟨.inQuotedField, p, fields⟩ alphabet.quote =
          .ok ⟨.quoteInQuotedField, p, fields⟩ := by
        unfold process
        dsimp only
        rw [if_pos rfl]
      have hstep : process alphabet limit ⟨.quoteInQuotedField, p, fields⟩ alphabet.quote =
          addChar limit alphabet.quote .inQuotedField ⟨.quoteInQuotedField, p, fields⟩ := by
        unfold process
        dsimp only
        rw [if_pos rfl]
      rw [scan_cons, hopen]
      dsimp only
      rw [scan_cons, hstep]
      unfold addChar
      dsimp only
      by_cases hfull : limit ≤ p.length
      · rw [if_pos hfull, if_neg]
        rw [List.length_cons]
        omega
      · rw [if_neg hfull]
        dsimp only
        rw [ih (by rw [List.length_append, List.length_singleton]; omega)]
        rw [List.length_append, List.length_singleton, List.length_cons, List.append_assoc,
          Nat.add_assoc, Nat.add_comm 1]
        rfl

variable (limit fields) in
/-- After a field that fits, the reader waits for what ends it. -/
theorem scan_field (hfield : Field alphabet raw value) :
    (limit < value.length → scan alphabet limit raw ⟨.startField, [], fields⟩ =
      .error .fieldLimit) ∧
    (value.length ≤ limit → ∃ state, scan alphabet limit raw ⟨.startField, [], fields⟩ =
      .ok ⟨state, value, fields⟩ ∧
      (state = .startField ∨ state = .inField ∨ state = .quoteInQuotedField)) := by
  cases hfield with
  | plain htext =>
      cases raw with
      | nil => exact ⟨fun hlong => absurd hlong (Nat.not_lt_zero _), fun _ => ⟨_, rfl, Or.inl rfl⟩⟩
      | cons c rest =>
          obtain ⟨hquote, hcomma, hcr, hlf⟩ := htext c List.mem_cons_self
          have hstep : process alphabet limit ⟨.startField, [], fields⟩ c =
              addChar limit c .inField ⟨.startField, [], fields⟩ := by
            unfold process processField
            dsimp only
            rw [isNewline_eq_false hcr hlf, if_neg Bool.false_ne_true, if_neg hquote,
              if_neg hcomma]
          rw [scan_cons, hstep]
          unfold addChar
          dsimp only
          rw [List.length_nil]
          by_cases hnone : limit ≤ 0
          · rw [if_pos hnone]
            refine ⟨fun _ => rfl, fun hfits => ?_⟩
            rw [List.length_cons] at hfits
            omega
          · rw [if_neg hnone]
            dsimp only
            rw [scan_inField (by rw [List.nil_append, List.length_singleton]; omega) rest
                fun x hx => htext x (List.mem_cons_of_mem _ hx),
              List.nil_append, List.singleton_append, List.length_singleton, List.length_cons,
              Nat.add_comm 1]
            constructor
            · intro hlong
              rw [if_neg (by omega)]
            · intro hfits
              rw [if_pos hfits]
              exact ⟨.inField, rfl, Or.inr (Or.inl rfl)⟩
  | @escaped raw value hraw =>
      have hopen : process alphabet limit ⟨.startField, [], fields⟩ alphabet.quote =
          .ok ⟨.inQuotedField, [], fields⟩ := by
        unfold process processField
        dsimp only
        rw [isNewline_eq_false alphabet.cr_ne_quote.symm alphabet.lf_ne_quote.symm,
          if_neg Bool.false_ne_true, if_pos rfl]
      have hclose : process alphabet limit ⟨.inQuotedField, value, fields⟩ alphabet.quote =
          .ok ⟨.quoteInQuotedField, value, fields⟩ := by
        unfold process
        dsimp only
        rw [if_pos rfl]
      rw [scan_cons, hopen]
      dsimp only
      rw [scan_append, scan_inQuotedField hraw (Nat.zero_le limit), List.length_nil, Nat.zero_add,
        List.nil_append]
      constructor
      · intro hlong
        rw [if_neg (by omega)]
      · intro hfits
        rw [if_pos hfits]
        dsimp only
        rw [scan_cons, hclose]
        exact ⟨.quoteInQuotedField, rfl, Or.inr (Or.inr rfl)⟩

variable (limit fields) in
/-- A record is read back, or fails at the first field that is too long. -/
theorem readFrom_record (hrecord : Record alphabet raw values) :
    readFrom alphabet limit raw ⟨.startField, [], fields⟩ =
      if ∀ value ∈ values, value.length ≤ limit then .ok (fields ++ values)
      else .error .fieldLimit := by
  induction hrecord generalizing fields with
  | @last raw value hfield =>
      obtain ⟨hlong, hfits⟩ := scan_field limit fields hfield
      unfold readFrom
      by_cases hvalue : value.length ≤ limit
      · obtain ⟨state, hscan, hstate⟩ := hfits hvalue
        rw [hscan, if_pos fun x hx => List.mem_singleton.mp hx ▸ hvalue]
        rcases hstate with rfl | rfl | rfl
        · rfl
        · rfl
        · rfl
      · rw [hlong (by omega), if_neg fun h => hvalue (h value List.mem_cons_self)]
  | @cons raw value rest values hfield hrest ih =>
      obtain ⟨hlong, hfits⟩ := scan_field limit fields hfield
      by_cases hvalue : value.length ≤ limit
      · obtain ⟨state, hscan, hstate⟩ := hfits hvalue
        have hcomma : process alphabet limit ⟨state, value, fields⟩ alphabet.comma =
            .ok ⟨.startField, [], fields ++ [value]⟩ := by
          have hnewline := isNewline_eq_false alphabet.cr_ne_comma.symm
            alphabet.lf_ne_comma.symm
          unfold process processField
          rcases hstate with rfl | rfl | rfl
          · dsimp only
            rw [hnewline, if_neg Bool.false_ne_true, if_neg alphabet.comma_ne_quote, if_pos rfl]
            rfl
          · dsimp only
            rw [hnewline, if_neg Bool.false_ne_true, if_pos rfl]
            rfl
          · dsimp only
            rw [if_neg alphabet.comma_ne_quote, if_pos rfl]
            rfl
        have hread := @ih (fields ++ [value])
        unfold readFrom at hread ⊢
        rw [scan_append, hscan]
        dsimp only
        rw [scan_cons, hcomma]
        dsimp only
        rw [hread, List.append_assoc, List.singleton_append]
        congr 1
        rw [eq_iff_iff, List.forall_mem_cons]
        exact ⟨fun h => ⟨hvalue, h⟩, fun h => h.2⟩
      · unfold readFrom
        rw [if_neg fun h => hvalue (h value List.mem_cons_self), scan_append, hlong (by omega)]

/-- The first field may be anything but empty, since an empty line has no fields. -/
theorem readLine_record (hrecord : Record alphabet raw values) {c : α} {rest : List α}
    (hraw : raw = c :: rest) (hcr : c ≠ alphabet.cr) (hlf : c ≠ alphabet.lf) :
    readLine alphabet limit raw =
      if ∀ value ∈ values, value.length ≤ limit then .ok values else .error .fieldLimit := by
  have hline := readFrom_record limit [] hrecord
  rw [List.nil_append] at hline
  rw [← hline]
  have hstart : process alphabet limit {} c = process alphabet limit ⟨.startField, [], []⟩ c := by
    unfold process
    dsimp only
    rw [isNewline_eq_false hcr hlf]
    rfl
  unfold readLine readFrom
  rw [hraw, scan_cons, scan_cons, hstart]

omit [DecidableEq α] in
theorem field_starts (hfield : Field alphabet raw value) (hvalue : value ≠ []) :
    ∃ c rest, raw = c :: rest ∧ c ≠ alphabet.cr ∧ c ≠ alphabet.lf := by
  cases hfield with
  | plain htext =>
      obtain ⟨c, rest, rfl⟩ := List.exists_cons_of_ne_nil hvalue
      obtain ⟨-, -, hcr, hlf⟩ := htext c List.mem_cons_self
      exact ⟨c, rest, rfl, hcr, hlf⟩
  | escaped => exact ⟨_, _, rfl, alphabet.cr_ne_quote.symm, alphabet.lf_ne_quote.symm⟩

omit [DecidableEq α] in
/-- A record whose first field is not empty is no empty line. -/
theorem record_starts (hrecord : Record alphabet raw (value :: values)) (hvalue : value ≠ []) :
    ∃ c rest, raw = c :: rest ∧ c ≠ alphabet.cr ∧ c ≠ alphabet.lf := by
  cases hrecord with
  | last hfield => exact field_starts hfield hvalue
  | cons hfield hrest =>
      obtain ⟨c, rest, rfl, hc⟩ := field_starts hfield hvalue
      exact ⟨c, _, rfl, hc⟩

/-- A record has one meaning. -/
theorem record_unique {values' : List (List α)} (h : Record alphabet raw values)
    (h' : Record alphabet raw values') : values = values' := by
  have hbound : ∃ limit : ℕ, (∀ value ∈ values, value.length ≤ limit) ∧
      ∀ value ∈ values', value.length ≤ limit := by
    refine ⟨((values ++ values').map List.length).sum, fun value hvalue =>
      ?_, fun value hvalue => ?_⟩
    · exact List.le_sum_of_mem (List.mem_map_of_mem (List.mem_append_left _ hvalue))
    · exact List.le_sum_of_mem (List.mem_map_of_mem (List.mem_append_right _ hvalue))
  obtain ⟨limit, hfits, hfits'⟩ := hbound
  have hread := readFrom_record limit [] h
  have hread' := readFrom_record limit [] h'
  rw [if_pos hfits] at hread
  rw [if_pos hfits', hread] at hread'
  exact Except.ok.inj hread'

end RoundTrip

/-! ### Characters and bytes -/

end Csv

def csvChars : Csv.Alphabet Char where
  quote := '"'
  comma := ','
  cr := '\r'
  lf := '\n'
  comma_ne_quote := by decide
  cr_ne_quote := by decide
  lf_ne_quote := by decide
  cr_ne_comma := by decide
  lf_ne_comma := by decide

def csvBytes : Csv.Alphabet UInt8 where
  quote := 0x22
  comma := 0x2c
  cr := 0x0d
  lf := 0x0a
  comma_ne_quote := by decide
  cr_ne_quote := by decide
  lf_ne_quote := by decide
  cr_ne_comma := by decide
  lf_ne_comma := by decide

namespace Csv

theorem comma_mem_utf8 {cs : List Char} : csvBytes.comma ∈ utf8 cs ↔ csvChars.comma ∈ cs :=
  mem_utf8_ascii (a := ',') (by decide)

theorem quote_mem_utf8 {cs : List Char} : csvBytes.quote ∈ utf8 cs ↔ csvChars.quote ∈ cs :=
  mem_utf8_ascii (a := '"') (by decide)

theorem writeField_utf8 (value : List Char) :
    writeField csvBytes (utf8 value) = utf8 (writeField csvChars value) := by
  have hdouble : (utf8 value).flatMap (fun c =>
        if c = csvBytes.quote then [csvBytes.quote, csvBytes.quote] else [c]) =
      utf8 (value.flatMap fun c =>
        if c = csvChars.quote then [csvChars.quote, csvChars.quote] else [c]) := by
    induction value with
    | nil => rfl
    | cons c rest ih =>
        rw [utf8_cons, List.flatMap_append, ih, List.flatMap_cons, utf8_append]
        congr 1
        by_cases hquote : c = csvChars.quote
        · subst hquote
          rfl
        · rw [if_neg hquote]
          have hplain : ∀ x ∈ String.utf8EncodeChar c, x ≠ csvBytes.quote := by
            rintro x hx rfl
            exact hquote ((mem_utf8EncodeChar_ascii (a := '"') (by decide)).mp hx)
          rw [List.flatMap_congr (fun x hx => if_neg (hplain x hx)), List.flatMap_singleton',
            utf8_cons]
          exact (List.append_nil _).symm
  unfold writeField
  rw [hdouble]
  by_cases hquoted : csvChars.comma ∈ value ∨ csvChars.quote ∈ value
  · rw [if_pos hquoted, if_pos (hquoted.imp comma_mem_utf8.mpr quote_mem_utf8.mpr), utf8_append,
      utf8_cons]
    rfl
  · rw [if_neg hquoted, if_neg fun h => hquoted (h.imp comma_mem_utf8.mp quote_mem_utf8.mp)]

theorem writeLine_utf8 (values : List (List Char)) :
    writeLine csvBytes (values.map utf8) = utf8 (writeLine csvChars values) := by
  induction values with
  | nil => rfl
  | cons value rest ih =>
      cases rest with
      | nil => exact writeField_utf8 value
      | cons next rest =>
          have hbytes : writeLine csvBytes ((value :: next :: rest).map utf8) =
              writeField csvBytes (utf8 value) ++
                csvBytes.comma :: writeLine csvBytes ((next :: rest).map utf8) := rfl
          have hchars : writeLine csvChars (value :: next :: rest) =
              writeField csvChars value ++
                csvChars.comma :: writeLine csvChars (next :: rest) := rfl
          rw [hbytes, hchars, ih, writeField_utf8, utf8_append, utf8_cons]
          rfl

/-! ### Records of text -/

/-- Plain bytes in front stay in front. -/
theorem Escaped.of_append {α : Type*} {alphabet : Alphabet α} {plain raw value : List α}
    (hplain : ∀ c ∈ plain, c ≠ alphabet.quote) (h : Escaped alphabet (plain ++ raw) value) :
    ∃ rest, value = plain ++ rest ∧ Escaped alphabet raw rest := by
  induction plain generalizing value with
  | nil => exact ⟨value, rfl, h⟩
  | cons c plain ih =>
      rw [List.cons_append] at h
      generalize hmore : plain ++ raw = more at h
      cases h with
      | char hc hrest =>
          subst hmore
          obtain ⟨rest, rfl, hraw⟩ := ih (fun x hx => hplain x (List.mem_cons_of_mem _ hx)) hrest
          exact ⟨rest, rfl, hraw⟩
      | quote hrest => exact absurd rfl (hplain _ List.mem_cons_self)

theorem eq_cons_of_utf8 {a : Char} (hascii : a.toNat < 0x80) {cs : List Char} {right : List UInt8}
    (h : utf8 cs = UInt8.ofNat a.toNat :: right) : ∃ es, cs = a :: es ∧ utf8 es = right := by
  have hempty : utf8 cs = [] ++ UInt8.ofNat a.toNat :: right := h
  obtain ⟨ds, es, rfl, hds, hes⟩ := utf8_split hascii hempty
  obtain rfl : ds = [] := utf8_injective hds
  exact ⟨es, rfl, hes⟩

/-- What text escapes is text. -/
theorem Escaped.of_utf8 {cs : List Char} {value : List UInt8}
    (h : Escaped csvBytes (utf8 cs) value) : ∃ vs, value = utf8 vs ∧ Escaped csvChars cs vs := by
  induction hlength : cs.length using Nat.strong_induction_on generalizing cs value with
  | h n ih =>
      subst hlength
      rcases cs with _ | ⟨d, ds⟩
      · cases h
        exact ⟨[], rfl, .nil⟩
      by_cases hquote : d = csvChars.quote
      · subst hquote
        have hbytes : utf8 (csvChars.quote :: ds) = csvBytes.quote :: utf8 ds := rfl
        rw [hbytes] at h
        generalize hraw : utf8 ds = raw at h
        cases h with
        | char hc hrest => exact absurd rfl hc
        | @quote raw value hrest =>
            obtain ⟨es, rfl, rfl⟩ := eq_cons_of_utf8 (a := '"') (by decide) hraw
            obtain ⟨vs, rfl, hes⟩ := ih es.length (by simp only [List.length_cons]; omega) hrest rfl
            exact ⟨csvChars.quote :: vs, rfl, .quote hes⟩
      · rw [utf8_cons] at h
        have hplain : ∀ x ∈ String.utf8EncodeChar d, x ≠ csvBytes.quote := by
          rintro x hx rfl
          exact hquote ((mem_utf8EncodeChar_ascii (a := '"') (by decide)).mp hx)
        obtain ⟨rest, rfl, hrest⟩ := Escaped.of_append hplain h
        obtain ⟨vs, rfl, hvs⟩ := ih ds.length (by simp only [List.length_cons]; omega) hrest rfl
        exact ⟨d :: vs, (utf8_cons d vs).symm, .char hquote hvs⟩

theorem isText_of_utf8 {cs : List Char} (h : ∀ x ∈ utf8 cs, csvBytes.IsText x) :
    ∀ c ∈ cs, csvChars.IsText c := by
  intro c hc
  refine ⟨?_, ?_, ?_, ?_⟩
  · rintro rfl
    exact (h _ (quote_mem_utf8.mpr hc)).1 rfl
  · rintro rfl
    exact (h _ (comma_mem_utf8.mpr hc)).2.1 rfl
  · rintro rfl
    exact (h _ ((mem_utf8_ascii (a := '\r') (by decide)).mpr hc)).2.2.1 rfl
  · rintro rfl
    exact (h _ ((mem_utf8_ascii (a := '\n') (by decide)).mpr hc)).2.2.2 rfl

theorem Field.of_utf8 {cs : List Char} {value : List UInt8} (h : Field csvBytes (utf8 cs) value) :
    ∃ vs, value = utf8 vs ∧ Field csvChars cs vs := by
  generalize hraw : utf8 cs = raw at h
  cases h with
  | plain htext => exact ⟨cs, hraw.symm, .plain (isText_of_utf8 (hraw ▸ htext))⟩
  | @escaped raw value hescaped =>
      obtain ⟨ds, rfl, hds⟩ := eq_cons_of_utf8 (a := '"') (by decide) hraw
      obtain ⟨es, rest, rfl, rfl, hrest⟩ := utf8_split (a := '"') (by decide) hds
      obtain rfl : rest = [] := utf8_injective hrest
      obtain ⟨vs, rfl, hvs⟩ := Escaped.of_utf8 hescaped
      exact ⟨vs, rfl, .escaped hvs⟩

/-- The fields of a record are text if the record is. -/
theorem Record.of_utf8 {cs : List Char} {values : List (List UInt8)}
    (h : Record csvBytes (utf8 cs) values) :
    ∃ vs, values = vs.map utf8 ∧ Record csvChars cs vs := by
  generalize hraw : utf8 cs = raw at h
  induction h generalizing cs with
  | last hfield =>
      subst hraw
      obtain ⟨v, rfl, hv⟩ := Field.of_utf8 hfield
      exact ⟨[v], rfl, .last hv⟩
  | cons hfield hrest ih =>
      obtain ⟨ds, es, rfl, rfl, hes⟩ := utf8_split (a := ',') (by decide) hraw
      obtain ⟨v, rfl, hv⟩ := Field.of_utf8 hfield
      obtain ⟨vs, rfl, hvs⟩ := ih hes
      exact ⟨v :: vs, rfl, .cons hv hvs⟩

end Csv

end XmrigProxy
