import XmrigProxy.Library.Lines
import Mathlib.Data.List.TakeWhile

/-! Lines are read from a connection in any pieces. -/
namespace XmrigProxy

def netBufferChunkSize : ℕ := 64 * 1024

/-- `buffer` holds the part of a line that has arrived, of length `m_pos`. -/
structure LineReader where
  buffer : List UInt8 := []
  overflow : Bool := false
  deriving DecidableEq, Repr

namespace LineReader

def newline : UInt8 := 0x0a

/-- What a call delivers and returns. -/
structure Outcome where
  reader : LineReader
  lines : List (List UInt8)
  valid : Bool
  deriving DecidableEq, Repr

def reset : LineReader := {}

def add (data : List UInt8) (r : LineReader) : LineReader × Bool :=
  let maxPayload := netBufferChunkSize - 1
  if r.overflow = true ∨ maxPayload < r.buffer.length ∨
    maxPayload - r.buffer.length < data.length then
    ({ buffer := [], overflow := true }, false)
  else ({ r with buffer := r.buffer ++ data }, true)

/-- The lines that end in the read, one after the other, and what remains after them. -/
def lines : List (List UInt8) → List UInt8 → LineReader → Outcome
  | [], remaining, r =>
      if remaining = [] then ⟨reset, [], true⟩
      else ⟨(r.add remaining).1, [], (r.add remaining).2⟩
  | start :: rest, remaining, r =>
      if r.overflow then ⟨{ r with overflow := false }, [], false⟩
      else if r.buffer ≠ [] then
        match r.add start with
        | (r, true) =>
            let next := lines rest remaining { r with buffer := [] }
            { next with lines := r.buffer :: next.lines }
        | (r, false) => ⟨{ r with overflow := false }, [], false⟩
      else if start ≠ [] then
        if netBufferChunkSize ≤ start.length then ⟨r, [], false⟩
        else
          let next := lines rest remaining r
          { next with lines := start :: next.lines }
      else lines rest remaining r

def getline (data : List UInt8) (r : LineReader) : Outcome :=
  r.lines (Lines.split newline data).1 (Lines.split newline data).2

def parse (data : List UInt8) (r : LineReader) : Outcome :=
  if data = [] then ⟨r, [], true⟩ else r.getline data

/-- The lines delivered by reads up to the first one that fails, and whether there was one. -/
def run : List (List UInt8) → LineReader → List (List UInt8) × Bool
  | [], _ => ([], false)
  | data :: reads, r =>
      let outcome := r.parse data
      if outcome.valid then
        (outcome.lines ++ (run reads outcome.reader).1, (run reads outcome.reader).2)
      else (outcome.lines, true)

/-! ### What a stream contains -/

def delivered (records : List (List UInt8)) : List (List UInt8) :=
  (records.takeWhile fun record => record.length < netBufferChunkSize).filter (· ≠ [])

/-- Some record of the stream does not fit, whether it is complete or not. -/
def Oversized (records : List (List UInt8)) (rest : List UInt8) : Prop :=
  (∃ record ∈ records, netBufferChunkSize ≤ record.length) ∨ netBufferChunkSize ≤ rest.length

instance (records : List (List UInt8)) (rest : List UInt8) : Decidable (Oversized records rest) :=
  inferInstanceAs (Decidable (_ ∨ _))

def expected (stream : List UInt8) : List (List UInt8) × Bool :=
  (delivered (Lines.split newline stream).1,
    Oversized (Lines.split newline stream).1 (Lines.split newline stream).2)

section Chunks

variable {buffer start remaining : List UInt8} {rest : List (List UInt8)}

theorem add_of_fits (hfits : (buffer ++ start).length < netBufferChunkSize) :
    add start ⟨buffer, false⟩ = (⟨buffer ++ start, false⟩, true) := by
  rw [List.length_append] at hfits
  unfold add
  dsimp only
  rw [if_neg]
  rintro (h | h | h)
  · exact Bool.false_ne_true h
  · omega
  · omega

theorem add_of_oversized (hlong : netBufferChunkSize ≤ (buffer ++ start).length) :
    add start ⟨buffer, false⟩ = (⟨[], true⟩, false) := by
  have hpositive : 0 < netBufferChunkSize := by decide
  rw [List.length_append] at hlong
  unfold add
  dsimp only
  rw [if_pos]
  omega

theorem lines_nil (hbuffer : buffer.length < netBufferChunkSize)
    (hsome : remaining ≠ [] ∨ buffer = []) : lines [] remaining ⟨buffer, false⟩ =
      if netBufferChunkSize ≤ (buffer ++ remaining).length then ⟨⟨[], true⟩, [], false⟩
      else ⟨⟨buffer ++ remaining, false⟩, [], true⟩ := by
  unfold lines
  by_cases hempty : remaining = []
  · obtain rfl : buffer = [] := hsome.resolve_left fun h => h hempty
    subst hempty
    rfl
  · rw [if_neg hempty]
    by_cases hlong : netBufferChunkSize ≤ (buffer ++ remaining).length
    · rw [if_pos hlong, add_of_oversized hlong]
    · rw [if_neg hlong, add_of_fits (Nat.lt_of_not_le hlong)]

/-- A record is delivered whole, whether it began in an earlier read or not. -/
theorem lines_cons : ∃ r, lines (start :: rest) remaining ⟨buffer, false⟩ =
    if netBufferChunkSize ≤ (buffer ++ start).length then ⟨r, [], false⟩
    else
      ⟨(lines rest remaining ⟨[], false⟩).reader,
        (if buffer ++ start = [] then [] else [buffer ++ start]) ++
          (lines rest remaining ⟨[], false⟩).lines,
        (lines rest remaining ⟨[], false⟩).valid⟩ := by
  have hpositive : 0 < netBufferChunkSize := by decide
  rw [lines]
  dsimp only
  rw [if_neg Bool.false_ne_true]
  by_cases hbuffer : buffer = []
  · subst hbuffer
    rw [if_neg (fun h => h rfl), List.nil_append]
    by_cases hstart : start = []
    · subst hstart
      exact ⟨{}, by rw [if_neg (fun h => h rfl), if_neg (by rw [List.length_nil]; omega),
        if_pos rfl]; rfl⟩
    · refine ⟨⟨[], false⟩, ?_⟩
      rw [if_pos hstart, if_neg hstart]
      rfl
  · have hsome : buffer ++ start ≠ [] := fun h => hbuffer (List.append_eq_nil_iff.mp h).1
    refine ⟨⟨[], false⟩, ?_⟩
    rw [if_pos hbuffer, if_neg hsome]
    by_cases hlong : netBufferChunkSize ≤ (buffer ++ start).length
    · rw [if_pos hlong, add_of_oversized hlong]
    · rw [if_neg hlong, add_of_fits (Nat.lt_of_not_le hlong)]
      rfl

theorem delivered_cons (record : List UInt8) (records : List (List UInt8)) :
    delivered (record :: records) = if netBufferChunkSize ≤ record.length then []
      else (if record = [] then [] else [record]) ++ delivered records := by
  unfold delivered
  rw [List.takeWhile_cons]
  by_cases hlong : netBufferChunkSize ≤ record.length
  · rw [if_pos hlong, decide_eq_false (Nat.not_lt_of_le hlong)]
    rfl
  · rw [if_neg hlong, decide_eq_true (Nat.lt_of_not_le hlong), if_pos rfl, List.filter_cons]
    by_cases hempty : record = []
    · rw [if_pos hempty, if_neg (by rw [decide_eq_true_eq]; exact fun h => h hempty)]
      rfl
    · rw [if_neg hempty, if_pos (decide_eq_true hempty)]
      rfl

/-- A read delivers the records that it completes, up to the first that does not fit, and keeps the
rest of the last one. -/
theorem lines_eq (hbuffer : buffer.length < netBufferChunkSize)
    (hsome : rest ≠ [] ∨ remaining ≠ [] ∨ buffer = []) :
    let parts := Lines.prepend buffer (rest, remaining)
    let outcome := lines rest remaining ⟨buffer, false⟩
    outcome.lines = delivered parts.1 ∧ outcome.valid = !decide (Oversized parts.1 parts.2) ∧
      (outcome.valid = true → outcome.reader = ⟨parts.2, false⟩) := by
  induction rest generalizing buffer with
  | nil =>
      intro parts outcome
      have houtcome := lines_nil hbuffer (hsome.resolve_left fun h => h rfl)
      have hoversized : Oversized parts.1 parts.2 ↔
          netBufferChunkSize ≤ (buffer ++ remaining).length := by
        constructor
        · rintro (⟨record, hrecord, -⟩ | h)
          · exact absurd hrecord List.not_mem_nil
          · exact h
        · exact Or.inr
      by_cases hlong : netBufferChunkSize ≤ (buffer ++ remaining).length
      · rw [if_pos hlong] at houtcome
        rw [show outcome = _ from houtcome, decide_eq_true (hoversized.mpr hlong)]
        exact ⟨rfl, rfl, fun h => absurd h Bool.false_ne_true⟩
      · rw [if_neg hlong] at houtcome
        rw [show outcome = _ from houtcome, decide_eq_false fun h => hlong (hoversized.mp h)]
        exact ⟨rfl, rfl, fun _ => rfl⟩
  | cons start rest ih =>
      intro parts outcome
      obtain ⟨r, houtcome⟩ : ∃ r, lines (start :: rest) remaining ⟨buffer, false⟩ = _ := lines_cons
      obtain ⟨hlines, hvalid, hreader⟩ := @ih [] (by decide) (Or.inr (Or.inr rfl))
      rw [Lines.prepend_nil] at hlines hvalid hreader
      have hoversized : Oversized parts.1 parts.2 ↔
          netBufferChunkSize ≤ (buffer ++ start).length ∨ Oversized rest remaining := by
        constructor
        · rintro (⟨record, hrecord, h⟩ | h)
          · rcases List.mem_cons.mp hrecord with rfl | hrecord
            · exact Or.inl h
            · exact Or.inr (Or.inl ⟨record, hrecord, h⟩)
          · exact Or.inr (Or.inr h)
        · rintro (h | ⟨record, hrecord, h⟩ | h)
          · exact Or.inl ⟨_, List.mem_cons_self, h⟩
          · exact Or.inl ⟨record, List.mem_cons_of_mem _ hrecord, h⟩
          · exact Or.inr h
      have hdelivered : delivered parts.1 = _ := delivered_cons (buffer ++ start) rest
      rw [hdelivered]
      by_cases hlong : netBufferChunkSize ≤ (buffer ++ start).length
      · rw [if_pos hlong] at houtcome ⊢
        rw [show outcome = _ from houtcome, decide_eq_true (hoversized.mpr (Or.inl hlong))]
        exact ⟨rfl, rfl, fun h => absurd h Bool.false_ne_true⟩
      · rw [if_neg hlong] at houtcome ⊢
        have hrest : decide (Oversized parts.1 parts.2) = decide (Oversized rest remaining) :=
          decide_eq_decide.mpr ⟨fun h => (hoversized.mp h).resolve_left hlong,
            fun h => hoversized.mpr (Or.inr h)⟩
        rw [show outcome = _ from houtcome, hrest]
        refine ⟨?_, hvalid, hreader⟩
        dsimp only
        rw [hlines]

theorem delivered_append {records : List (List UInt8)}
    (hfits : ∀ record ∈ records, record.length < netBufferChunkSize) (more : List (List UInt8)) :
    delivered (records ++ more) = delivered records ++ delivered more := by
  induction records with
  | nil => rfl
  | cons record records ih =>
      have hrecord := Nat.not_le_of_lt (hfits record List.mem_cons_self)
      rw [List.cons_append, delivered_cons, delivered_cons, if_neg hrecord, if_neg hrecord,
        ih fun x hx => hfits x (List.mem_cons_of_mem _ hx), List.append_assoc]

/-- Nothing is delivered from the first record on that does not fit. -/
theorem delivered_append_of_oversized {records : List (List UInt8)}
    (hlong : ∃ record ∈ records, netBufferChunkSize ≤ record.length) (more : List (List UInt8)) :
    delivered (records ++ more) = delivered records := by
  induction records with
  | nil =>
      obtain ⟨record, hrecord, -⟩ := hlong
      exact absurd hrecord List.not_mem_nil
  | cons record records ih =>
      rw [List.cons_append, delivered_cons, delivered_cons]
      by_cases hrecord : netBufferChunkSize ≤ record.length
      · rw [if_pos hrecord, if_pos hrecord]
      · rw [if_neg hrecord, if_neg hrecord, ih]
        obtain ⟨x, hx, h⟩ := hlong
        rcases List.mem_cons.mp hx with rfl | hx
        · exact absurd h hrecord
        · exact ⟨x, hx, h⟩

/-- A record that is too long already stays so, however it goes on. -/
theorem oversized_of_start (hlong : netBufferChunkSize ≤ start.length) (hstart : newline ∉ start)
    (stream : List UInt8) :
    delivered (Lines.split newline (start ++ stream)).1 = [] ∧
      Oversized (Lines.split newline (start ++ stream)).1
        (Lines.split newline (start ++ stream)).2 := by
  have hlonger : ∀ more, netBufferChunkSize ≤ (start ++ more).length := fun more => by
    rw [List.length_append]
    omega
  rw [Lines.split_prepend hstart]
  obtain ⟨_ | ⟨record, records⟩, rest⟩ := Lines.split newline stream
  · exact ⟨rfl, Or.inr (hlonger rest)⟩
  · have hrecord : delivered ((start ++ record) :: records) = [] := by
      rw [delivered_cons, if_pos (hlonger record)]
    exact ⟨hrecord, Or.inl ⟨_, List.mem_cons_self, hlonger record⟩⟩

/-- What a read makes of a stream is right for every stream that goes on from it. -/
theorem expected_append (stream more : List UInt8) :
    let records := (Lines.split newline stream).1
    let rest := (Lines.split newline stream).2
    expected (stream ++ more) =
      if Oversized records rest then (delivered records, true)
      else (delivered records ++ (expected (rest ++ more)).1, (expected (rest ++ more)).2) := by
  intro records rest
  unfold expected
  rw [Lines.split_append stream more]
  by_cases hoversized : Oversized records rest
  · rw [if_pos hoversized]
    by_cases hrecord : ∃ record ∈ records, netBufferChunkSize ≤ record.length
    · rw [delivered_append_of_oversized hrecord, decide_eq_true]
      obtain ⟨record, hmem, hlong⟩ := hrecord
      exact Or.inl ⟨record, List.mem_append_left _ hmem, hlong⟩
    · have hrest := hoversized.resolve_left hrecord
      have hfits : ∀ record ∈ records, record.length < netBufferChunkSize := fun record hmem =>
        Nat.lt_of_not_le fun hlong => hrecord ⟨record, hmem, hlong⟩
      obtain ⟨hnone, hstays⟩ := oversized_of_start hrest (Lines.rest_not_mem stream) more
      rw [delivered_append hfits, hnone, List.append_nil, decide_eq_true]
      rcases hstays with ⟨record, hmem, hlong⟩ | hlong
      · exact Or.inl ⟨record, List.mem_append_right _ hmem, hlong⟩
      · exact Or.inr hlong
  · rw [if_neg hoversized]
    have hfits : ∀ record ∈ records, record.length < netBufferChunkSize := fun record hmem =>
      Nat.lt_of_not_le fun hlong => hoversized (Or.inl ⟨record, hmem, hlong⟩)
    rw [delivered_append hfits]
    congr 1
    rw [decide_eq_decide]
    constructor
    · rintro (⟨record, hmem, hlong⟩ | hlong)
      · rcases List.mem_append.mp hmem with hmem | hmem
        · exact absurd hlong (Nat.not_le_of_lt (hfits record hmem))
        · exact Or.inl ⟨record, hmem, hlong⟩
      · exact Or.inr hlong
    · rintro (⟨record, hmem, hlong⟩ | hlong)
      · exact Or.inl ⟨record, List.mem_append_right _ hmem, hlong⟩
      · exact Or.inr hlong

/-- Reads are as good as the stream that they make up, continued from what is in the buffer. -/
theorem run_eq (hbuffer : buffer.length < netBufferChunkSize) (hnewline : newline ∉ buffer)
    (reads : List (List UInt8)) :
    run reads ⟨buffer, false⟩ = expected (buffer ++ reads.flatten) := by
  induction reads generalizing buffer with
  | nil =>
      rw [List.flatten_nil, List.append_nil]
      unfold expected
      rw [Lines.split_rest hnewline, decide_eq_false]
      · rfl
      · rintro (⟨record, hrecord, -⟩ | hlong)
        · exact absurd hrecord List.not_mem_nil
        · exact Nat.not_le_of_lt hbuffer hlong
  | cons data reads ih =>
      rw [List.flatten_cons, run]
      by_cases hdata : data = []
      · subst hdata
        exact ih hbuffer hnewline
      have hparse : parse data ⟨buffer, false⟩ =
          lines (Lines.split newline data).1 (Lines.split newline data).2 ⟨buffer, false⟩ := by
        unfold parse
        rw [if_neg hdata]
        rfl
      have hsome : (Lines.split newline data).1 ≠ [] ∨ (Lines.split newline data).2 ≠ [] ∨
          buffer = [] := by
        by_contra h
        rw [not_or, not_or, not_not, not_not] at h
        exact hdata (Lines.eq_nil_of_split (Prod.ext h.1 h.2.1))
      obtain ⟨hlines, hvalid, hreader⟩ := lines_eq hbuffer hsome
      rw [← hparse, ← Lines.split_prepend hnewline] at hlines hvalid hreader
      rw [← List.append_assoc, expected_append]
      by_cases hoversized : Oversized (Lines.split newline (buffer ++ data)).1
          (Lines.split newline (buffer ++ data)).2
      · rw [decide_eq_true hoversized] at hvalid
        rw [if_pos hoversized, hvalid, hlines]
        rfl
      · rw [decide_eq_false hoversized] at hvalid
        have hshort : (Lines.split newline (buffer ++ data)).2.length < netBufferChunkSize :=
          Nat.lt_of_not_le fun h => hoversized (Or.inr h)
        rw [if_neg hoversized, hreader hvalid, ih hshort (Lines.rest_not_mem _), hvalid, hlines]
        rfl

end Chunks

theorem mem_delivered {records : List (List UInt8)} {line : List UInt8}
    (hline : line ∈ delivered records) :
    line ∈ records ∧ line ≠ [] ∧ line.length < netBufferChunkSize := by
  obtain ⟨hmem, hsome⟩ := List.mem_filter.mp hline
  have hshort := List.mem_takeWhile_imp hmem
  exact ⟨(List.takeWhile_sublist _).subset hmem, of_decide_eq_true hsome, of_decide_eq_true hshort⟩

/-- However a stream is cut into reads, the lines delivered are its nonempty records before the
first that does not fit, and the reads stop there, if there is one. -/
theorem run_chunks :
    (∀ xs ys : List (List UInt8), xs.flatten = ys.flatten → run xs {} = run ys {}) ∧
    ∀ reads : List (List UInt8),
      let records := (Lines.split newline reads.flatten).1
      let rest := (Lines.split newline reads.flatten).2
      (run reads {}).1 = (records.takeWhile fun record => record.length < netBufferChunkSize).filter
        (· ≠ []) ∧
      ((run reads {}).2 = true ↔
        (∃ record ∈ records, netBufferChunkSize ≤ record.length) ∨
          netBufferChunkSize ≤ rest.length) ∧
      ∀ line ∈ (run reads {}).1, line ∈ records ∧ line ≠ [] ∧
        line.length ≤ netBufferChunkSize - 1 := by
  have hrun : ∀ reads : List (List UInt8), run reads {} = expected reads.flatten := fun reads =>
    run_eq (by decide) List.not_mem_nil reads
  refine ⟨fun xs ys heq => by rw [hrun, hrun, heq], fun reads => ⟨?_, ?_, ?_⟩⟩
  · rw [hrun]
    rfl
  · rw [hrun]
    exact decide_eq_true_iff
  · intro line hline
    rw [hrun] at hline
    obtain ⟨hmem, hsome, hshort⟩ := mem_delivered hline
    exact ⟨hmem, hsome, by omega⟩

end LineReader

end XmrigProxy
