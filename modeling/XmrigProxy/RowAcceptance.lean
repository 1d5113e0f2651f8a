import XmrigProxy.RowParser

/-! Which lines of the event stream the dashboard accepts, and what it reads from them. The numbers
that the proxy prints pass every check; texts have to be of the form that their column asks for. -/
namespace XmrigProxy.Dashboard

open LiveEventStream

/-- The texts of the columns of a line. -/
def Reads (streamId : Text) (sequence : ℕ) (now : Clock) (row : Row) (fields : ParsedRow) : Prop :=
  ∀ c, utf8 (fields c) = row.shown streamId sequence now c

/-- What no type of the proxy ensures. A number of 64 bits is short enough to be read. -/
structure Acceptable (python : Python) (fields : ParsedRow) : Prop where
  event : fields .event ≠ []
  sequence : (python.int (fields .eventSeq)).isSome
  template : fields .templateId ≠ [] → (python.int (fields .templateId)).isSome
  metrics : ∀ c ∈ FLOAT_FIELDS, floatProblem python fields c = none
  stream : isStreamIdText (fields .streamId)
  hashes : ∀ c ∈ hashFields, fields c ≠ [] → isHash (fields c)
  blobs : ∀ c ∈ blobFields, fields c ≠ [] → isHex (fields c)
  stats : fields .verifierStatsJson ≠ [] →
    JsonText.loads python.limits (fields .verifierStatsJson) = .ok () ∧
      JsonText.isObject (fields .verifierStatsJson)

/-- No column is too long for the reader. -/
def Short (fields : ParsedRow) : Prop :=
  ∀ value ∈ HEADER_V3.map fields, value.length ≤ fieldSizeLimit

instance (fields : ParsedRow) : Decidable (Short fields) :=
  inferInstanceAs (Decidable (∀ value ∈ _, _))

section Printable

theorem ite_some_eq_none {α : Type*} {p : Prop} [Decidable p] {x : α} :
    (if p then some x else none) = none ↔ ¬ p := by
  by_cases hp : p
  · rw [if_pos hp]
    exact iff_of_false (Option.some_ne_none x) (not_not.mpr hp)
  · rw [if_neg hp]
    exact iff_of_true rfl hp

theorem escape_eq_self {c : UInt8} (hlow : 0x20 ≤ c) (hdel : c ≠ 0x7f) : escape c = [c] := by
  have hne : ∀ d : UInt8, d < 0x20 → c ≠ d := by
    rintro d hd rfl
    exact absurd hd (UInt8.not_lt.mpr hlow)
  unfold escape
  rw [if_neg (hne _ (by decide)), if_neg (hne _ (by decide)), if_neg (hne _ (by decide)), if_neg]
  rintro (hlt | heq)
  · exact absurd hlt (UInt8.not_lt.mpr hlow)
  · exact hdel heq

theorem sanitize_eq_self {input : Text} (h : ∀ x ∈ input, 0x20 ≤ x ∧ x ≠ 0x7f) :
    sanitize input = input := by
  unfold sanitize
  rw [List.flatMap_congr fun x hx => escape_eq_self (h x hx).1 (h x hx).2]
  exact List.flatMap_singleton' input

theorem printable_of_mem {c : Char} (hc : c = '-' ∨ c.isDigit) {x : UInt8}
    (hx : x ∈ String.utf8EncodeChar c) : 0x20 ≤ x ∧ x ≠ 0x7f := by
  have hall : ∀ n < 0x40, 0x20 ≤ n → 0x20 ≤ UInt8.ofNat n ∧ UInt8.ofNat n ≠ 0x7f := by decide
  have hrange : 0x20 ≤ c.toNat ∧ c.toNat < 0x40 := by
    rcases hc with rfl | hdigit
    · decide
    · have hrange := Numerals.toNat_of_isDigit hdigit
      omega
  rw [utf8EncodeChar_of_ascii (by omega), List.mem_singleton] at hx
  subst hx
  exact hall _ hrange.2 hrange.1

theorem sanitize_printInt (n : ℤ) :
    sanitize (utf8 (Numerals.printInt n)) = utf8 (Numerals.printInt n) := by
  apply sanitize_eq_self
  intro x hx
  obtain ⟨c, hc, hx⟩ := List.mem_flatMap.mp hx
  exact printable_of_mem (Numerals.mem_printInt hc) hx

theorem mem_sanitize_of_mem {input : Text} {x : UInt8} (hx : x ∈ input) (hlow : 0x20 ≤ x)
    (hdel : x ≠ 0x7f) : x ∈ sanitize input := by
  apply List.mem_flatMap.mpr
  exact ⟨x, hx, escape_eq_self hlow hdel ▸ List.mem_singleton_self x⟩

end Printable

section Fields

variable {python : Python} {streamId : Text} {sequence : ℕ} {now : Clock} {row : Row}
  {fields : ParsedRow}

/-- The columns of a number of 64 bits that the proxy prints. -/
def Integral (value : Text) : Prop :=
  value = [] ∨ ∃ n : ℤ, value = utf8 (Numerals.printInt n) ∧ n.natAbs < 2 ^ 64

/-- A number of 64 bits without a sign. -/
def Unsigned (value : Text) : Prop :=
  value = [] ∨ ∃ n, value = utf8 (Numerals.printInt n) ∧ 0 ≤ n ∧ n ≤ UINT64_MAX

theorem unsigned_number (field : Option UInt64) : Unsigned (number field) := by
  cases field with
  | none => exact Or.inl rfl
  | some n =>
      refine Or.inr ⟨(n.toNat : ℤ), rfl, Int.natCast_nonneg _, ?_⟩
      have hlt := n.toNat_lt
      unfold UINT64_MAX
      omega

theorem integral_number (field : Option UInt64) : Integral (number field) := by
  rcases unsigned_number field with hempty | ⟨n, hn, hlow, hhigh⟩
  · exact Or.inl hempty
  · unfold UINT64_MAX at hhigh
    exact Or.inr ⟨n, hn, by omega⟩

theorem integral_signedNumber (field : Option Int64) : Integral (signedNumber field) := by
  cases field with
  | none => exact Or.inl rfl
  | some n =>
      have hlow := n.le_toInt
      have hhigh := n.toInt_lt
      exact Or.inr ⟨n.toInt, rfl, by omega⟩

theorem integral_field {c : Column} (hc : c ∈ NUMERIC_FIELDS) (hsequence : c ≠ .eventSeq)
    (htemplate : c ≠ .templateId) : Integral (row.field streamId sequence now c) := by
  cases c with
  | eventSeq => exact absurd rfl hsequence
  | templateId => exact absurd rfl htemplate
  | minerId | mapperId | minerRequestId | daemonRequestId | errorCode | extraNonce =>
      exact integral_signedNumber _
  | listenPort | sourceId | templateAgeMs | height | minerTargetDiff | networkTargetDiff | shareId
  | shareDiff | latencyMs | connectionMs | rxBytes | txBytes | nonceOffset | nonceSize
  | reservedOffset | reservedSize | extraNonceOffset | viewTag | verifierActive | verifierQueued
  | verifierQueueLimit | verifierSeedCount | verifierSeedCapacity | verifierVmPoolSize =>
      exact integral_number _
  | _ => exact absurd hc (by decide)

theorem unsigned_field {c : Column} (hc : c ∈ diffFields) :
    Unsigned (row.field streamId sequence now c) := by
  cases c with
  | minerTargetDiff | networkTargetDiff | shareDiff => exact unsigned_number _
  | _ => exact absurd hc (by decide)

/-- Nothing of a number is cut off or escaped. -/
theorem shown_integral {c : Column} (hc : c ∈ NUMERIC_FIELDS)
    (h : row.field streamId sequence now c = [] ∨
      ∃ n, row.field streamId sequence now c = utf8 (Numerals.printInt n)) :
    row.shown streamId sequence now c = row.field streamId sequence now c := by
  have hmax : Column.maxBytes c = none := by
    have hall : ∀ c ∈ NUMERIC_FIELDS, Column.maxBytes c = none := by decide
    exact hall c hc
  unfold Row.shown shown
  rw [hmax]
  rcases h with hempty | ⟨n, hn⟩
  · rw [hempty]
    rfl
  · rw [hn]
    exact sanitize_printInt n

variable (hreads : Reads streamId sequence now row fields)
include hreads

theorem field_integral {c : Column} (hc : c ∈ NUMERIC_FIELDS)
    (h : Integral (row.field streamId sequence now c)) :
    fields c = [] ∨ ∃ n, fields c = Numerals.printInt n ∧ python.int (fields c) = some n := by
  rcases h with hempty | ⟨n, hn, hsmall⟩
  · have hshown := (hreads c).trans (shown_integral hc (Or.inl hempty))
    exact Or.inl (utf8_injective (hshown.trans hempty))
  · have hshown := (hreads c).trans (shown_integral hc (Or.inr ⟨n, hn⟩))
    have hfield := utf8_injective (hshown.trans hn)
    refine Or.inr ⟨n, hfield, ?_⟩
    rw [hfield]
    exact Numerals.readInt_small hsmall

theorem integerProblem_eq_none {c : Column} (hc : c ∈ NUMERIC_FIELDS) (hsequence : c ≠ .eventSeq)
    (htemplate : c ≠ .templateId) : integerProblem python fields c = none := by
  unfold integerProblem
  rw [if_neg]
  rintro ⟨hne, hread⟩
  have hfield := @field_integral python _ _ _ _ _ hreads c hc
    (integral_field hc hsequence htemplate)
  rcases hfield with hempty | ⟨n, -, hn⟩
  · exact hne hempty
  · rw [hn] at hread
    exact Bool.false_ne_true hread

theorem diffProblem_eq_none {c : Column} (hc : c ∈ diffFields) :
    diffProblem python fields c = none ∧ 0 ≤ intOf python fields c := by
  have hnumeric : c ∈ NUMERIC_FIELDS := by
    have hall : ∀ c ∈ diffFields, c ∈ NUMERIC_FIELDS := by decide
    exact hall c hc
  have hrange : fields c = [] ∨ ∃ n, fields c = Numerals.printInt n ∧ 0 ≤ n ∧ n ≤ UINT64_MAX := by
    have hunsigned : Unsigned (row.field streamId sequence now c) := unsigned_field hc
    have hshown := hreads c
    rcases hunsigned with hempty | ⟨n, hn, hlow, hhigh⟩
    · rw [shown_integral hnumeric (Or.inl hempty), hempty] at hshown
      exact Or.inl (utf8_injective hshown)
    · rw [shown_integral hnumeric (Or.inr ⟨n, hn⟩), hn] at hshown
      exact Or.inr ⟨n, utf8_injective hshown, hlow, hhigh⟩
  unfold diffProblem
  rcases hrange with hempty | ⟨n, hn, hlow, hhigh⟩
  · refine ⟨if_neg fun h => h.1 hempty, ?_⟩
    unfold intOf
    rw [hempty]
    exact le_refl _
  · have hint : intOf python fields c = n := by
      unfold UINT64_MAX at hhigh
      unfold intOf
      rw [hn]
      exact congrArg (Option.getD · 0) (Numerals.readInt_small (by omega))
    rw [hint]
    exact ⟨if_neg fun h => h.2 ⟨hlow, hhigh⟩, hlow⟩

theorem fields_schemaVersion : fields .schemaVersion = Schema.v3.version := by
  have hshown : row.shown streamId sequence now .schemaVersion = sanitize (bytes "3") := rfl
  have hversion : sanitize (bytes "3") = utf8 Schema.v3.version := by decide
  exact utf8_injective ((hreads .schemaVersion).trans (hshown.trans hversion))

theorem fields_eventSeq : fields .eventSeq = Numerals.printInt sequence := by
  have hshown := hreads .eventSeq
  rw [shown_integral (by decide) (Or.inr ⟨sequence, rfl⟩)] at hshown
  exact utf8_injective hshown

theorem fields_timeUtc : fields .timeUtc ≠ [] := by
  have hdash : 0x2d ∈ utcNow now := by
    unfold utcNow
    simp only [List.append_assoc]
    exact List.mem_append_right _ (List.mem_append_left _ (by decide))
  have hshown : utf8 (fields .timeUtc) = sanitize (utcNow now) := hreads .timeUtc
  intro hempty
  have hmem := mem_sanitize_of_mem hdash (by decide) (by decide)
  rw [← hshown, hempty] at hmem
  exact absurd hmem List.not_mem_nil

/-- What is read of the number of a row is that number. -/
theorem intOf_eventSeq (hsome : (python.int (fields .eventSeq)).isSome = true) :
    intOf python fields .eventSeq = sequence := by
  have hread := @Numerals.readInt_printInt python.alphabet sequence
  rw [← fields_eventSeq hreads] at hread
  change python.int (fields .eventSeq) = _ at hread
  unfold intOf
  split_ifs at hread
  · rw [hread]
    rfl
  · rw [hread] at hsome
    exact nomatch hsome

omit hreads in
theorem stats_eq_none_iff :
    statsProblem python fields = none ∧ statsBreakdown python fields = false ↔
      (fields .verifierStatsJson ≠ [] →
        JsonText.loads python.limits (fields .verifierStatsJson) = .ok () ∧
          JsonText.isObject (fields .verifierStatsJson)) := by
  unfold statsProblem statsBreakdown
  by_cases hempty : fields .verifierStatsJson = []
  · simp [hempty]
  · rcases hloads : JsonText.loads python.limits (fields .verifierStatsJson) with failure | ⟨⟩
    · cases failure <;> simp [hempty]
    · by_cases hobject : JsonText.isObject (fields .verifierStatsJson) = true <;>
        simp [hempty, hobject]

/-- Whether a row passes depends on its texts alone. -/
theorem firstProblem_eq_none_iff (hsequence : 0 < sequence) :
    firstProblem python fields .v3 = none ∧ statsBreakdown python fields = false ↔
      Acceptable python fields := by
  have heventSeq : fields .eventSeq ≠ [] := by
    rw [fields_eventSeq hreads]
    exact Numerals.printInt_ne_nil _
  have hrequired : ¬ (fields .eventSeq = [] ∨ fields .timeUtc = [] ∨ fields .event = []) ↔
      fields .event ≠ [] := by
    have htime := fields_timeUtc hreads
    tauto
  have hnumber : ∀ c, integerProblem python fields c = none ↔
      (fields c ≠ [] → (python.int (fields c)).isSome = true) := by
    intro c
    unfold integerProblem
    rw [ite_some_eq_none, not_and, Option.isNone_iff_eq_none, ← ne_eq, Option.isSome_iff_ne_none]
  have hnumbers : NUMERIC_FIELDS.findSome? (integerProblem python fields) = none ↔
      (python.int (fields .eventSeq)).isSome = true ∧
        (fields .templateId ≠ [] → (python.int (fields .templateId)).isSome = true) := by
    rw [List.findSome?_eq_none_iff]
    constructor
    · intro h
      exact ⟨(hnumber _).mp (h .eventSeq (by decide)) heventSeq,
        (hnumber _).mp (h .templateId (by decide))⟩
    · rintro ⟨heq, htemplate⟩ c hc
      by_cases hsame : c = .eventSeq
      · exact (hnumber c).mpr fun _ => hsame ▸ heq
      by_cases hother : c = .templateId
      · exact (hnumber c).mpr fun hne => hother ▸ htemplate (hother ▸ hne)
      · exact integerProblem_eq_none hreads hc hsame hother
  have hpositive : (python.int (fields .eventSeq)).isSome = true →
      ¬ intOf python fields .eventSeq ≤ 0 := by
    intro hsome
    rw [intOf_eventSeq hreads hsome]
    omega
  have hdiffs : diffFields.findSome? (diffProblem python fields) = none := by
    rw [List.findSome?_eq_none_iff]
    exact fun c hc => (diffProblem_eq_none hreads hc).1
  have hnegative : ¬ intOf python fields .shareDiff < 0 :=
    Int.not_lt.mpr (diffProblem_eq_none hreads (by decide)).2
  have hstats := @stats_eq_none_iff python fields
  unfold firstProblem problems
  rw [List.findSome?_eq_none_iff]
  simp only [List.forall_mem_cons, id_eq, List.not_mem_nil, false_imp_iff, implies_true, and_true,
    fields_schemaVersion hreads, ne_eq, not_true_eq_false, if_false, true_and, hnumbers, hdiffs,
    hnegative, and_false, ite_some_eq_none, hrequired, List.findSome?_eq_none_iff, not_not]
  constructor
  · rintro ⟨⟨hevent, ⟨hsome, htemplate⟩, hmetrics, -, hstream, hhashes, hblobs, hproblem⟩,
      hbreakdown⟩
    refine ⟨hevent, hsome, htemplate, hmetrics, hstream, ?_, ?_, hstats.mp ⟨hproblem, hbreakdown⟩⟩
    · intro c hc hne
      by_contra hhash
      exact ite_some_eq_none.mp (hhashes c hc) ⟨hne, hhash⟩
    · intro c hc hne
      by_contra hhex
      exact ite_some_eq_none.mp (hblobs c hc) ⟨hne, hhex⟩
  · intro h
    obtain ⟨hproblem, hbreakdown⟩ := hstats.mpr h.stats
    refine ⟨⟨h.event, ⟨h.sequence, h.template⟩, h.metrics, hpositive h.sequence, h.stream, ?_, ?_,
      hproblem⟩, hbreakdown⟩
    · intro c hc
      exact ite_some_eq_none.mpr fun ⟨hne, hhash⟩ => hhash (h.hashes c hc hne)
    · intro c hc
      exact ite_some_eq_none.mpr fun ⟨hne, hhex⟩ => hhex (h.blobs c hc hne)

end Fields

section Line

variable {python : Python} {streamId : Text} {sequence : ℕ} {now : Clock} {row : Row}
  {fields : ParsedRow} {line : List UInt8}

theorem mem_HEADER_V3 (c : Column) : c ∈ HEADER_V3 := by
  cases c <;> decide

theorem rowOf_map (header : List Column) (hall : ∀ c, c ∈ header) (fields : ParsedRow) :
    rowOf header (header.map fields) = fields := by
  funext c
  have hlookup : ∀ cs : List Column, c ∈ cs →
      (cs.zip (cs.map fields)).lookup c = some (fields c) := by
    intro cs hc
    induction cs with
    | nil => exact absurd hc List.not_mem_nil
    | cons d cs ih =>
        rw [List.map_cons, List.zip_cons_cons, List.lookup_cons]
        by_cases heq : c = d
        · subst heq
          rw [beq_self_eq_true]
        · rw [beq_eq_false_iff_ne.mpr heq]
          exact ih (List.mem_of_ne_of_mem heq hc)
  unfold rowOf
  rw [hlookup header (hall c), Option.getD_some]

theorem record_csv (hline : csv streamId sequence now row = line ++ [csvBytes.lf]) :
    Csv.Record csvBytes line (HEADER_V3.map (row.shown streamId sequence now)) := by
  have hwritten : line =
      Csv.writeLine csvBytes (columns.map (row.shown streamId sequence now)) := by
    rw [csv_eq_writeLine] at hline
    exact (List.append_cancel_right hline).symm
  rw [hwritten]
  apply Csv.record_writeLine
  · exact List.cons_ne_nil _ _
  · intro value hvalue c hc
    obtain ⟨column, -, rfl⟩ := List.mem_map.mp hvalue
    exact sanitize_newline hc

/-- A line of text has text in every column. -/
theorem exists_reads (hline : csv streamId sequence now row = line ++ [csvBytes.lf])
    {text : List Char} (htext : decodeUtf8 line = some text) :
    ∃ fields, Reads streamId sequence now row fields ∧
      Csv.Record csvChars text (HEADER_V3.map fields) := by
  have hrecord := record_csv hline
  rw [← utf8_of_decodeUtf8 htext] at hrecord
  obtain ⟨values, hvalues, hchars⟩ := Csv.Record.of_utf8 hrecord
  have hshown : ∀ c, ∃ cs, utf8 cs = row.shown streamId sequence now c := by
    intro c
    have hmem := List.mem_map_of_mem (f := row.shown streamId sequence now) (mem_HEADER_V3 c)
    rw [hvalues] at hmem
    obtain ⟨cs, -, hcs⟩ := List.mem_map.mp hmem
    exact ⟨cs, hcs⟩
  choose fields hfields using hshown
  refine ⟨fields, hfields, ?_⟩
  have hsame : values.map utf8 = (HEADER_V3.map fields).map utf8 := by
    rw [← hvalues, List.map_map]
    exact List.map_congr_left fun c _ => (hfields c).symm
  rwa [List.map_injective_iff.mpr utf8_injective hsame] at hchars

/-- A record is cut at its commas again, unless a field is too long for the reader. -/
theorem readLine_text {text : List Char} (htext : Csv.Record csvChars text (HEADER_V3.map fields))
    (hversion : fields .schemaVersion = Schema.v3.version) :
    Csv.readLine csvChars fieldSizeLimit text =
      if Short fields then .ok (HEADER_V3.map fields) else .error .fieldLimit := by
  have hlist : HEADER_V3.map fields = ['3'] :: HEADER_V3.tail.map fields := by
    have hheader : HEADER_V3 = .schemaVersion :: HEADER_V3.tail := rfl
    rw [hheader, List.map_cons, hversion]
    rfl
  obtain ⟨c, rest, hraw, hcr, hlf⟩ := Csv.record_starts (hlist ▸ htext) (List.cons_ne_nil _ _)
  exact Csv.readLine_record htext hraw hcr hlf

theorem decode_of_reads (hline : csv streamId sequence now row = line ++ [csvBytes.lf])
    (hreads : Reads streamId sequence now row fields) :
    ∃ text, decodeUtf8 line = some text ∧ Csv.Record csvChars text (HEADER_V3.map fields) := by
  have hshown : columns.map (row.shown streamId sequence now) =
      (HEADER_V3.map fields).map utf8 := by
    rw [List.map_map]
    exact List.map_congr_left fun c _ => (hreads c).symm
  have hbytes : line = utf8 (Csv.writeLine csvChars (HEADER_V3.map fields)) := by
    rw [csv_eq_writeLine, hshown, Csv.writeLine_utf8] at hline
    exact (List.append_cancel_right hline).symm
  have htext := hbytes ▸ decodeUtf8_utf8 (Csv.writeLine csvChars (HEADER_V3.map fields))
  obtain ⟨fields', hreads', hrecord⟩ := exists_reads hline htext
  have hsame : fields' = fields :=
    funext fun c => utf8_injective ((hreads' c).trans (hreads c).symm)
  exact ⟨_, htext, hsame ▸ hrecord⟩

/-- What the parser makes of a line whose texts are known. -/
theorem parse_of_reads {p : RowParser} (hp : p.schema = some .v3)
    (hline : csv streamId sequence now row = line ++ [csvBytes.lf])
    (hreads : Reads streamId sequence now row fields) : p.parse python line =
      ({ p with lineNumber := p.lineNumber + 1 },
        if Short fields then match firstProblem python fields .v3 with
          | some problem => .error (.protocolError ⟨p.lineNumber + 1, problem⟩)
          | none => if statsBreakdown python fields then .error .unexpected else .ok (some fields)
        else .error (.protocolError ⟨p.lineNumber + 1, .csv .fieldLimit⟩)) := by
  have hversion := fields_schemaVersion hreads
  obtain ⟨text, htext, hrecord⟩ := decode_of_reads hline hreads
  have hnames : HEADER_V3.map fields ≠ Schema.v3.names := by
    intro heq
    have hhead : fields .schemaVersion = "schema_version".toList := (List.cons.inj heq).1
    rw [hversion] at hhead
    exact absurd hhead (by decide)
  unfold RowParser.parse
  dsimp only
  rw [htext]
  dsimp only
  rw [readLine_text hrecord hversion, hp]
  by_cases hshort : Short fields
  · rw [if_pos hshort, if_pos hshort]
    dsimp only
    have hheader : Schema.v3.header = HEADER_V3 := rfl
    rw [if_neg hnames, hheader, if_neg (not_not.mpr (List.length_map _)),
      rowOf_map _ mem_HEADER_V3]
    cases firstProblem python fields .v3 with
    | none => rfl
    | some problem => rfl
  · rw [if_neg hshort, if_neg hshort]

theorem reads_unique {fields' : ParsedRow} (h : Reads streamId sequence now row fields)
    (h' : Reads streamId sequence now row fields') : fields = fields' :=
  funext fun c => utf8_injective ((h c).trans (h' c).symm)

theorem parse_undecodable {p : RowParser} (hnone : decodeUtf8 line = none) :
    p.parse python line = ({ p with lineNumber := p.lineNumber + 1 },
      .error (.protocolError ⟨p.lineNumber + 1, .encoding⟩)) := by
  unfold RowParser.parse
  dsimp only
  rw [hnone]

/-- The texts of the row, if the dashboard takes them. -/
def Passes (python : Python) (streamId : Text) (sequence : ℕ) (now : Clock) (row : Row)
    (fields : ParsedRow) : Prop :=
  Reads streamId sequence now row fields ∧ Short fields ∧ Acceptable python fields

/-- What comes of a line: a row that passes, or an exception if there is none. Only the statistics
make the parser raise one that its caller does not expect. -/
inductive Outcome (python : Python) (streamId : Text) (sequence : ℕ) (now : Clock) (row : Row) :
    Except Raised (Option ParsedRow) → Prop where
  | passes (fields : ParsedRow) (h : Passes python streamId sequence now row fields) :
      Outcome python streamId sequence now row (.ok (some fields))
  | refused (e : ProtocolError)
      (h : ∀ fields, ¬ Passes python streamId sequence now row fields) :
      Outcome python streamId sequence now row (.error (.protocolError e))
  | breakdown (fields : ParsedRow) (hreads : Reads streamId sequence now row fields)
      (hstats : statsBreakdown python fields = true) :
      Outcome python streamId sequence now row (.error .unexpected)

theorem parse_line {p : RowParser} (hp : p.schema = some .v3) (hsequence : 0 < sequence)
    (hline : csv streamId sequence now row = line ++ [csvBytes.lf]) :
    ∃ result, p.parse python line = ({ p with lineNumber := p.lineNumber + 1 }, result) ∧
      Outcome python streamId sequence now row result := by
  cases htext : decodeUtf8 line with
  | none =>
      refine ⟨_, parse_undecodable htext, .refused _ ?_⟩
      rintro fields ⟨hreads, -⟩
      obtain ⟨text, htext', -⟩ := decode_of_reads hline hreads
      rw [htext] at htext'
      exact absurd htext' (Option.some_ne_none _).symm
  | some text =>
      obtain ⟨fields, hreads, -⟩ := exists_reads hline htext
      have hproblem := @firstProblem_eq_none_iff python _ _ _ _ _ hreads hsequence
      refine ⟨_, parse_of_reads hp hline hreads, ?_⟩
      by_cases hshort : Short fields
      · rw [if_pos hshort]
        cases hfirst : firstProblem python fields .v3 with
        | none =>
            dsimp only
            cases hstats : statsBreakdown python fields with
            | true => exact .breakdown fields hreads hstats
            | false => exact .passes fields ⟨hreads, hshort, hproblem.mp ⟨hfirst, hstats⟩⟩
        | some problem =>
            refine .refused _ ?_
            rintro fields' ⟨hreads', -, hacceptable⟩
            rw [← reads_unique hreads hreads', ← hproblem, hfirst] at hacceptable
            exact absurd hacceptable.1 (Option.some_ne_none _)
      · rw [if_neg hshort]
        refine .refused _ ?_
        rintro fields' ⟨hreads', hshort', -⟩
        exact hshort (reads_unique hreads hreads' ▸ hshort')

/-- A row on whose statistics the decoder breaks down does not pass. -/
theorem not_passes_of_breakdown (hreads : Reads streamId sequence now row fields)
    (hstats : statsBreakdown python fields = true) (fields' : ParsedRow) :
    ¬ Passes python streamId sequence now row fields' := by
  rintro ⟨hreads', -, hacceptable⟩
  have hnone := (stats_eq_none_iff.mpr hacceptable.stats).2
  rw [← reads_unique hreads hreads', hstats] at hnone
  exact Bool.false_ne_true hnone.symm

/-- A line is accepted exactly when its columns are text, none of them is too long for the reader,
and those that have a form have it. The row that is handed out has the texts of the columns. -/
theorem parse_csv {p : RowParser} (hp : p.schema = some .v3) (hsequence : 0 < sequence)
    (hline : csv streamId sequence now row = line ++ [csvBytes.lf]) :
    (∀ fields, (p.parse python line).2 = .ok (some fields) ↔
      Passes python streamId sequence now row fields) ∧
    (p.parse python line).2 ≠ .ok none ∧
    (p.parse python line).1 = { p with lineNumber := p.lineNumber + 1 } := by
  obtain ⟨result, hparse, houtcome⟩ := @parse_line python _ _ _ _ _ p hp hsequence hline
  rw [hparse]
  cases houtcome with
  | passes fields h =>
      refine ⟨fun fields' => ⟨fun hsame => ?_, fun h' => ?_⟩, fun hnone => (nomatch hnone), rfl⟩
      · obtain rfl : fields = fields' := Option.some.inj (Except.ok.inj hsame)
        exact h
      · rw [reads_unique h.1 h'.1]
  | refused e h =>
      exact ⟨fun fields => iff_of_false (fun hsame => (nomatch hsame)) (h fields),
        fun hnone => (nomatch hnone), rfl⟩
  | breakdown fields hreads hstats =>
      exact ⟨fun fields' => iff_of_false (fun hsame => (nomatch hsame))
        (not_passes_of_breakdown hreads hstats fields'), fun hnone => (nomatch hnone), rfl⟩

/-- An interpreter that knows no digits but those of ASCII. -/
def asciiPython : Python := ⟨⟨fun _ => false, fun _ => none⟩, 900⟩

/-- An event of the daemon. -/
def newBlock : Row := { event := bytes "zmq_new_block" }

/-- Its texts, where it is the first row of a stream. -/
def newBlockFields : ParsedRow
  | .schemaVersion => ['3']
  | .eventSeq => ['1']
  | .timeUtc => "2024-01-01T00:00:00.000Z".toList
  | .event => "zmq_new_block".toList
  | .streamId => List.replicate 32 'a'
  | _ => []

theorem passes_newBlock : Passes asciiPython (List.replicate 32 0x61) 1 ⟨2024, 1, 1, 0, 0, 0, 0⟩
    newBlock newBlockFields := by
  refine ⟨?_, by decide +kernel, ?_⟩
  · intro c
    cases c <;> decide +kernel
  · exact ⟨by decide, by decide, by decide, by decide, by decide, by decide, by decide,
      fun hne => absurd rfl hne⟩

theorem parse_csv_newBlock :
    let line := (csv (List.replicate 32 0x61) 1 ⟨2024, 1, 1, 0, 0, 0, 0⟩ newBlock).dropLast
    csv (List.replicate 32 0x61) 1 ⟨2024, 1, 1, 0, 0, 0, 0⟩ newBlock = line ++ [csvBytes.lf] ∧
      ((RowParser.mk (some .v3) 1).parse asciiPython line).2 = .ok (some newBlockFields) ∧
      ((RowParser.mk (some .v3) 1).parse asciiPython line).1 = RowParser.mk (some .v3) 2 := by
  intro line
  have hline : csv (List.replicate 32 0x61) 1 ⟨2024, 1, 1, 0, 0, 0, 0⟩ newBlock =
      line ++ [csvBytes.lf] := by decide +kernel
  have hparse := @parse_csv asciiPython _ _ _ _ line (RowParser.mk (some .v3) 1) rfl Nat.one_pos
    hline
  exact ⟨hline, (hparse.1 newBlockFields).mpr passes_newBlock, hparse.2.2⟩

end Line

section Header

variable {python : Python}

/-- The header without its end of line. -/
def headerLine : List UInt8 := Csv.writeLine csvBytes (columns.map fun c => bytes c.name)

theorem headerLine_eq : headerLine = utf8 (Csv.writeLine csvChars Schema.v3.names) := by
  have hcolumns : Schema.v3.header = columns := by decide
  have hnames : columns.map (fun c => bytes c.name) = Schema.v3.names.map utf8 := by
    unfold Schema.names
    rw [hcolumns, List.map_map]
    exact List.map_congr_left fun c _ => bytes_eq_utf8 c.name
  unfold headerLine
  rw [hnames, Csv.writeLine_utf8]

/-- The first record names the columns. -/
theorem parse_first {p : RowParser} {raw : List UInt8} {text : List Char}
    {values : List (List Char)} {schema : Schema} (hp : p.schema = none)
    (htext : decodeUtf8 raw = some text)
    (hread : Csv.readLine csvChars fieldSizeLimit text = .ok values)
    (hsupported : SUPPORTED_HEADERS values = some schema) :
    p.parse python raw = (⟨some schema, p.lineNumber + 1⟩, .ok none) := by
  unfold RowParser.parse
  dsimp only
  rw [htext]
  dsimp only
  rw [hread, hp]
  dsimp only
  rw [hsupported]

theorem decode_headerLine :
    decodeUtf8 headerLine = some (Csv.writeLine csvChars Schema.v3.names) := by
  rw [headerLine_eq, decodeUtf8_utf8]

theorem readLine_header :
    Csv.readLine csvChars fieldSizeLimit (Csv.writeLine csvChars Schema.v3.names) =
      .ok Schema.v3.names := by
  have hall : (Schema.v3.names.all fun value =>
      value.all fun c => c != csvChars.cr && c != csvChars.lf) = true := by decide +kernel
  have hnewline : ∀ value ∈ Schema.v3.names, ∀ c ∈ value, c ≠ csvChars.cr ∧ c ≠ csvChars.lf := by
    intro value hvalue c hc
    have hchar := List.all_eq_true.mp (List.all_eq_true.mp hall value hvalue) c hc
    simpa only [Bool.and_eq_true, bne_iff_ne] using hchar
  have hrecord : Csv.Record csvChars (Csv.writeLine csvChars Schema.v3.names) Schema.v3.names :=
    Csv.record_writeLine (by decide) hnewline
  have hshort : ∀ value ∈ Schema.v3.names, value.length ≤ fieldSizeLimit := by decide +kernel
  have hnames : Schema.v3.names = "schema_version".toList :: Schema.v3.names.tail := by
    decide +kernel
  obtain ⟨c, rest, hraw, hcr, hlf⟩ := Csv.record_starts (hnames ▸ hrecord) (by decide)
  rw [Csv.readLine_record hrecord hraw hcr hlf, if_pos hshort]

/-- The header of the proxy is the one that the dashboard looks for. -/
theorem parse_header {p : RowParser} (hp : p.schema = none) :
    p.parse python headerLine = (⟨some .v3, p.lineNumber + 1⟩, .ok none) :=
  parse_first hp decode_headerLine readLine_header (by decide +kernel)

end Header

end XmrigProxy.Dashboard
