import XmrigProxy.EventSubscribers
import XmrigProxy.FrameBuffer
import XmrigProxy.RowAcceptance

/-! The dashboard's end of the event stream: a connection that is read in pieces of any size. -/
namespace XmrigProxy.Dashboard

open LiveEventStream

inductive Complaint where
  | partialRecord
  | framing (message : String)
  | record (e : ProtocolError)
  | beforeHeader
  deriving DecidableEq

/-- What the reader reports to the state of the dashboard. -/
inductive Call where
  | beginSession
  | ingest (row : ParsedRow)
  | protocolError (complaint : Complaint)
  | endSession
  | waiting
  | fatal

structure UnixEventReader where
  parser : RowParser := {}
  framer : FrameBuffer := {}
  sessionStarted : Bool := false
  returned : Bool := false
  deriving DecidableEq

namespace UnixEventReader

def setFramer (framer : FrameBuffer) (r : UnixEventReader) : UnixEventReader := { r with framer }

def giveUp (parser : RowParser) (r : UnixEventReader) : UnixEventReader :=
  { r with
    parser
    returned := true }

section Records

variable (python : Python)

/-- A record that is refused ends the connection only before the header. An exception that is no
`ProtocolError` ends the reader. -/
def onRecord (record : List UInt8) (r : UnixEventReader) : UnixEventReader × List Call :=
  match r.parser.parse python record with
  | (parser, .error .unexpected) => (giveUp parser r, [.fatal])
  | (parser, .error (.protocolError e)) =>
      if parser.schema.isNone then
        (giveUp parser r, [.protocolError (.record e), .waiting])
      else ({ r with parser }, [.protocolError (.record e)])
  | (parser, .ok none) =>
      if parser.schema.isSome ∧ r.sessionStarted = false then
        ({ r with
           parser
           sessionStarted := true }, [.beginSession])
      else ({ r with parser }, [])
  | (parser, .ok (some row)) =>
      if r.sessionStarted = false then
        (giveUp parser r, [.protocolError .beforeHeader, .waiting])
      else ({ r with parser }, [.ingest row])

def onRecords : List (List UInt8) → UnixEventReader → UnixEventReader × List Call
  | [], r => (r, [])
  | record :: rest, r =>
      let (r, calls) := onRecord python record r
      if r.returned then (r, calls)
      else ((onRecords rest r).1, calls ++ (onRecords rest r).2)

end Records

/-- The peer has closed the socket. -/
def onClose (r : UnixEventReader) : UnixEventReader × List Call :=
  (giveUp r.parser r,
   (if r.framer.hasPartial then [.protocolError .partialRecord] else []) ++
     if r.sessionStarted then [.endSession] else [.waiting])

/-- A piece of the stream; an empty one is its end. -/
def onChunk (python : Python) (chunk : List UInt8) (r : UnixEventReader) :
    UnixEventReader × List Call :=
  if r.returned then (r, [])
  else if chunk = [] then onClose r
  else match r.framer.feed chunk with
    | (framer, .error message) =>
        (giveUp r.parser (setFramer framer r),
         [.protocolError (.framing message), if r.sessionStarted then .endSession else .waiting])
    | (framer, .ok records) => onRecords python records (setFramer framer r)

def read (python : Python) :
    List (List UInt8) → UnixEventReader → UnixEventReader × List Call
  | [], r => (r, [])
  | chunk :: chunks, r =>
      let (r, calls) := onChunk python chunk r
      ((read python chunks r).1, calls ++ (read python chunks r).2)

/-! ### Whatever the pieces -/

section Pieces

variable {python : Python} {r : UnixEventReader}

theorem onRecord_framer (record : List UInt8) (framer : FrameBuffer) (r : UnixEventReader) :
    onRecord python record (setFramer framer r) =
      (setFramer framer (onRecord python record r).1, (onRecord python record r).2) := by
  have hparser : (setFramer framer r).parser = r.parser := rfl
  have hstarted : (setFramer framer r).sessionStarted = r.sessionStarted := rfl
  unfold onRecord
  rw [hparser, hstarted]
  obtain ⟨parser, result⟩ := r.parser.parse python record
  cases result with
  | error e =>
      cases e with
      | unexpected => rfl
      | protocolError e =>
          dsimp only
          split_ifs <;> rfl
  | ok row =>
      cases row with
      | none =>
          dsimp only
          split_ifs <;> rfl
      | some row =>
          dsimp only
          split_ifs <;> rfl

/-- What is made of the records does not depend on what is still in the buffer. -/
theorem onRecords_framer (records : List (List UInt8)) (framer : FrameBuffer)
    (r : UnixEventReader) : onRecords python records (setFramer framer r) =
      (setFramer framer (onRecords python records r).1, (onRecords python records r).2) := by
  induction records generalizing r with
  | nil => rfl
  | cons record records ih =>
      have hreturned : ∀ r, (setFramer framer r).returned = r.returned := fun _ => rfl
      rw [onRecords, onRecords, onRecord_framer]
      dsimp only
      rw [hreturned]
      split_ifs
      · rfl
      · rw [ih]

theorem onRecords_returned {record : List UInt8} (rest : List (List UInt8))
    (hreturned : (onRecord python record r).1.returned = true) :
    onRecords python (record :: rest) r = onRecord python record r := by
  rw [onRecords]
  exact if_pos hreturned

theorem onRecords_open {record : List UInt8} (rest : List (List UInt8))
    (hopen : (onRecord python record r).1.returned = false) :
    onRecords python (record :: rest) r =
      ((onRecords python rest (onRecord python record r).1).1,
        (onRecord python record r).2 ++
          (onRecords python rest (onRecord python record r).1).2) := by
  rw [onRecords]
  dsimp only
  rw [hopen, if_neg Bool.false_ne_true]

theorem onRecords_append (xs ys : List (List UInt8)) (hopen : r.returned = false) :
    onRecords python (xs ++ ys) r =
      if (onRecords python xs r).1.returned = true then onRecords python xs r
      else ((onRecords python ys (onRecords python xs r).1).1,
        (onRecords python xs r).2 ++ (onRecords python ys (onRecords python xs r).1).2) := by
  induction xs generalizing r with
  | nil =>
      have hclosed : ¬ (onRecords python [] r).1.returned = true := by
        change ¬ r.returned = true
        rw [hopen]
        exact Bool.false_ne_true
      rw [if_neg hclosed]
      rfl
  | cons record xs ih =>
      rw [List.cons_append]
      cases hreturned : (onRecord python record r).1.returned with
      | true =>
          rw [onRecords_returned _ hreturned, onRecords_returned _ hreturned, if_pos hreturned]
      | false =>
          rw [onRecords_open _ hreturned, onRecords_open _ hreturned, ih hreturned]
          dsimp only
          split_ifs
          · rfl
          · rw [List.append_assoc]

theorem read_returned (chunks : List (List UInt8)) (hreturned : r.returned = true) :
    read python chunks r = (r, []) := by
  induction chunks with
  | nil => rfl
  | cons chunk chunks ih =>
      have hchunk : onChunk python chunk r = (r, []) := if_pos hreturned
      rw [read, hchunk]
      dsimp only
      rw [ih]
      rfl

/-- While no record is too long, it does not matter where the stream was cut. -/
theorem read_calls (chunks : List (List UInt8)) (hopen : r.returned = false)
    (hchunks : [] ∉ chunks) (hbuffer : FrameBuffer.newline ∉ r.framer.buffer)
    (hfits : FrameBuffer.Fits r.framer.limit (r.framer.buffer ++ chunks.flatten)) :
    (read python chunks r).2 =
      (onRecords python (FrameBuffer.records (r.framer.buffer ++ chunks.flatten)) r).2 := by
  induction chunks generalizing r with
  | nil =>
      have hnone : FrameBuffer.records r.framer.buffer = [] := by
        unfold FrameBuffer.records
        rw [Lines.split_rest hbuffer]
        rfl
      rw [List.flatten_nil, List.append_nil, hnone]
      rfl
  | cons chunk chunks ih =>
      rw [List.mem_cons, not_or] at hchunks
      rw [List.flatten_cons, ← List.append_assoc] at hfits ⊢
      set framer : FrameBuffer := { r.framer with
        buffer := (Lines.split FrameBuffer.newline (r.framer.buffer ++ chunk)).2 } with hframer
      set records := FrameBuffer.records (r.framer.buffer ++ chunk) with hrecords
      have hchunk : onChunk python chunk r =
          (setFramer framer (onRecords python records r).1, (onRecords python records r).2) := by
        unfold onChunk
        rw [if_neg (by rw [hopen]; exact Bool.false_ne_true), if_neg (Ne.symm hchunks.1),
          FrameBuffer.feed_eq, if_pos hfits.of_append]
        exact onRecords_framer _ _ _
      have hrest := (FrameBuffer.fits_append _ _).mp hfits
      rw [read, hchunk, FrameBuffer.records_append, onRecords_append _ _ hopen]
      change (onRecords python records r).2 ++
        (read python chunks (setFramer framer (onRecords python records r).1)).2 = _
      by_cases hreturned : (onRecords python records r).1.returned = true
      · have hclosed := @read_returned python (setFramer framer (onRecords python records r).1)
          chunks hreturned
        rw [if_pos hreturned, hclosed, List.append_nil]
      · have hcalls := ih (r := setFramer framer (onRecords python records r).1)
          (Bool.eq_false_iff.mpr hreturned) hchunks.2 (Lines.rest_not_mem _) hrest.2
        rw [if_neg hreturned, hcalls, onRecords_framer]
        rfl

end Pieces

end UnixEventReader

/-! ### The rows of the proxy -/

/-- What the reader reports of a row. -/
def Answers (python : Python) (streamId : Text) (e : Emission) (call : Call) : Prop :=
  (∃ fields, call = .ingest fields ∧ Passes python streamId e.sequence e.now e.row fields) ∨
    ∃ problem, call = .protocolError (.record problem) ∧
      ∀ fields, ¬ Passes python streamId e.sequence e.now e.row fields

/-- The statistics of a row are nested too deeply, or hold a number of too many digits. -/
def Unreadable (python : Python) (streamId : Text) (e : Emission) : Prop :=
  ∃ fields, Reads streamId e.sequence e.now e.row fields ∧ statsBreakdown python fields = true

/-- Every row is answered in its turn, up to the first one that the decoder of JSON breaks down
on. -/
inductive Reported (python : Python) (streamId : Text) : List Emission → List Call → Prop where
  | none : Reported python streamId [] []
  | next {e : Emission} {es : List Emission} {call : Call} {calls : List Call}
      (h : Answers python streamId e call) (hlater : Reported python streamId es calls) :
      Reported python streamId (e :: es) (call :: calls)
  | fatal {e : Emission} (es : List Emission) (h : Unreadable python streamId e) :
      Reported python streamId (e :: es) [.fatal]

/-- The line of a row without its end. -/
def rowLine (streamId : Text) (e : Emission) : List UInt8 :=
  Csv.writeLine csvBytes (columns.map (e.row.shown streamId e.sequence e.now))

section Records

variable {streamId : Text} {e : Emission}

theorem line_eq (streamId : Text) (e : Emission) :
    e.line streamId = rowLine streamId e ++ [csvBytes.lf] :=
  csv_eq_writeLine streamId e.sequence e.now e.row

/-- Lines that are records for the framer, as they are. -/
structure Plain (record : List UInt8) : Prop where
  newline : FrameBuffer.newline ∉ record
  carriageReturn : FrameBuffer.carriageReturn ∉ record
  nonempty : record ≠ []

theorem Plain.strip {record : List UInt8} (h : Plain record) :
    FrameBuffer.strip record = record := by
  unfold FrameBuffer.strip
  rw [if_neg]
  intro hlast
  exact h.carriageReturn (List.mem_of_getLast? hlast)

theorem plain_writeLine {value : Column → Text} (hfirst : value .schemaVersion ≠ [])
    (hvalue : ∀ column ∈ columns, ∀ c ∈ value column, c ≠ csvBytes.cr ∧ c ≠ csvBytes.lf) :
    Plain (Csv.writeLine csvBytes (columns.map value)) := by
  have hcolumns : columns = .schemaVersion :: columns.tail := rfl
  have hbreaks : ∀ x ∈ columns.map value, ∀ c ∈ x, c ≠ csvBytes.cr ∧ c ≠ csvBytes.lf := by
    intro x hx
    obtain ⟨column, hcolumn, rfl⟩ := List.mem_map.mp hx
    exact hvalue column hcolumn
  have hline : ∀ c ∈ Csv.writeLine csvBytes (columns.map value),
      c ≠ csvBytes.cr ∧ c ≠ csvBytes.lf := by
    intro c hc
    rcases Csv.mem_writeLine hc with rfl | rfl | ⟨x, hx, hc⟩
    · exact ⟨csvBytes.cr_ne_quote.symm, csvBytes.lf_ne_quote.symm⟩
    · exact ⟨csvBytes.cr_ne_comma.symm, csvBytes.lf_ne_comma.symm⟩
    · exact hbreaks x hx c hc
  refine ⟨fun h => (hline _ h).2 rfl, fun h => (hline _ h).1 rfl, ?_⟩
  rw [hcolumns, List.map_cons] at hbreaks ⊢
  have hrecord := Csv.record_writeLine (List.cons_ne_nil _ _) hbreaks
  obtain ⟨c, rest, hraw, -⟩ := Csv.record_starts hrecord hfirst
  rw [hraw]
  exact List.cons_ne_nil _ _

theorem plain_rowLine (streamId : Text) (e : Emission) : Plain (rowLine streamId e) := by
  apply plain_writeLine
  · have hversion : e.row.shown streamId e.sequence e.now .schemaVersion =
        sanitize (bytes "3") := rfl
    rw [hversion]
    decide
  · exact fun _ _ _ hc => sanitize_newline hc

theorem plain_headerLine : Plain headerLine := by
  apply plain_writeLine
  · decide
  · decide +kernel

/-- What a stream of such lines completes. -/
theorem records_of_start {lines : List (List UInt8)} (hlines : ∀ line ∈ lines, Plain line)
    {stream : List UInt8} (hstream : stream <+: (lines.map (· ++ [FrameBuffer.newline])).flatten) :
    FrameBuffer.records stream = lines.take (stream.count FrameBuffer.newline) := by
  obtain ⟨hsplit, -⟩ := Lines.split_of_start (fun line hline => (hlines line hline).newline) hstream
  have hplain : ∀ line ∈ lines.take (stream.count FrameBuffer.newline), Plain line :=
    fun line hline => hlines line (List.mem_of_mem_take hline)
  unfold FrameBuffer.records
  rw [hsplit, List.map_congr_left fun line hline => (hplain line hline).strip, List.map_id',
    List.filter_eq_self]
  intro line hline
  exact decide_eq_true (hplain line hline).nonempty

theorem fits_of_start {limit : ℕ} {lines : List (List UInt8)} (hlines : ∀ line ∈ lines, Plain line)
    (hshort : ∀ line ∈ lines, line.length ≤ limit) {stream : List UInt8}
    (hstream : stream <+: (lines.map (· ++ [FrameBuffer.newline])).flatten) :
    FrameBuffer.Fits limit stream := by
  obtain ⟨hsplit, hrest⟩ :=
    Lines.split_of_start (fun line hline => (hlines line hline).newline) hstream
  refine ⟨?_, ?_⟩
  · rw [hsplit]
    exact fun line hline => hshort line (List.mem_of_mem_take hline)
  · rcases hrest with hrest | ⟨line, hline, hpart⟩
    · rw [hrest]
      exact Nat.zero_le _
    · exact hpart.length_le.trans (hshort line hline)

end Records

namespace UnixEventReader

variable {python : Python} {streamId : Text} {r : UnixEventReader}

/-- The reader once it has seen the header. -/
def started : UnixEventReader where
  parser := ⟨some .v3, 1⟩
  sessionStarted := true

/-- The header starts the session. -/
theorem onRecord_none {record : List UInt8} {parser : RowParser}
    (hparse : r.parser.parse python record = (parser, .ok none))
    (hschema : parser.schema.isSome = true) (hstarted : r.sessionStarted = false) :
    onRecord python record r =
      ({ r with
         parser
         sessionStarted := true }, [.beginSession]) := by
  unfold onRecord
  rw [hparse]
  exact if_pos ⟨hschema, hstarted⟩

theorem onRecord_header : onRecord python headerLine {} = (started, [.beginSession]) := by
  have hparse : RowParser.parse python headerLine {} = (⟨some .v3, 1⟩, .ok none) :=
    parse_header rfl
  exact onRecord_none hparse rfl rfl

/-- After the header, a row is handed on or complained about, and the next one is read, unless the
decoder breaks down. -/
theorem onRecord_row (hschema : r.parser.schema = some .v3) (hstarted : r.sessionStarted = true)
    {e : Emission} (hsequence : 0 < e.sequence) :
    (∃ call, Answers python streamId e call ∧ onRecord python (rowLine streamId e) r =
        ({ r with parser := { r.parser with lineNumber := r.parser.lineNumber + 1 } }, [call])) ∨
      Unreadable python streamId e ∧ onRecord python (rowLine streamId e) r =
        (giveUp { r.parser with lineNumber := r.parser.lineNumber + 1 } r, [.fatal]) := by
  obtain ⟨result, hparse, houtcome⟩ :=
    @parse_line python _ _ _ _ _ _ hschema hsequence (line_eq streamId e)
  unfold onRecord
  rw [hparse]
  cases houtcome with
  | passes fields hpasses =>
      refine Or.inl ⟨.ingest fields, Or.inl ⟨fields, rfl, hpasses⟩, ?_⟩
      dsimp only
      rw [hstarted]
      rfl
  | refused problem hnot =>
      refine Or.inl ⟨.protocolError (.record problem), Or.inr ⟨problem, rfl, hnot⟩, ?_⟩
      dsimp only
      rw [hschema]
      rfl
  | breakdown fields hreads hstats => exact Or.inr ⟨⟨fields, hreads, hstats⟩, rfl⟩

theorem onRecords_rows (hschema : r.parser.schema = some .v3) (hstarted : r.sessionStarted = true)
    (hopen : r.returned = false) {es : List Emission} (hsequence : ∀ e ∈ es, 0 < e.sequence) :
    Reported python streamId es (onRecords python (es.map (rowLine streamId)) r).2 := by
  induction es generalizing r with
  | nil => exact .none
  | cons e es ih =>
      have hlater : ∀ x ∈ es, 0 < x.sequence :=
        fun x hx => hsequence x (List.mem_cons_of_mem _ hx)
      rw [List.map_cons]
      rcases @onRecord_row python streamId r hschema hstarted e (hsequence e List.mem_cons_self)
        with ⟨call, hanswers, hcall⟩ | ⟨hunreadable, hcall⟩
      · have hopen' : (onRecord python (rowLine streamId e) r).1.returned = false := by
          rw [hcall]
          exact hopen
        have hstep := onRecords_open (es.map (rowLine streamId)) hopen'
        rw [hstep, hcall]
        exact .next hanswers (ih hschema hstarted hopen hlater)
      · have hclosed : (onRecord python (rowLine streamId e) r).1.returned = true := by
          rw [hcall]
          rfl
        rw [onRecords_returned _ hclosed, hcall]
        exact .fatal es hunreadable

/-- What is reported of the header and so many rows. -/
theorem onRecords_started {first : List UInt8}
    (hfirst : onRecord python first {} = (started, [.beginSession]))
    {es : List Emission} (hsequence : ∀ e ∈ es, 0 < e.sequence) {n : ℕ} (hn : 0 < n) :
    ∃ calls, (onRecords python ((first :: es.map (rowLine streamId)).take n) {}).2 =
        .beginSession :: calls ∧ Reported python streamId (es.take (n - 1)) calls := by
  obtain ⟨m, rfl⟩ : ∃ m, n = m + 1 := ⟨n - 1, by omega⟩
  have hopen : (onRecord python first {}).1.returned = false := by
    rw [hfirst]
    rfl
  have hstep := onRecords_open ((es.map (rowLine streamId)).take m) hopen
  rw [List.take_succ_cons, hstep, hfirst, ← List.map_take, Nat.add_sub_cancel]
  refine ⟨(onRecords python ((es.take m).map (rowLine streamId)) started).2, rfl, ?_⟩
  exact onRecords_rows rfl rfl rfl fun e he => hsequence e (List.mem_of_mem_take he)

end UnixEventReader

/-- The lines of what a subscriber was handed. -/
theorem handed_eq (streamId : Text) (broadcasts : List Emission) (since count : ℕ) :
    handed streamId broadcasts since count =
      (headerLine :: ((broadcasts.drop since).take count).map (rowLine streamId)).map
        (· ++ [FrameBuffer.newline]) := by
  have hheader : csvHeader = headerLine ++ [FrameBuffer.newline] := csvHeader_eq_writeLine
  have hrow : Emission.line streamId = fun e => rowLine streamId e ++ [FrameBuffer.newline] :=
    funext fun e => line_eq streamId e
  unfold handed
  rw [hheader, hrow, List.map_cons, List.map_map]
  rfl

/-- What is reported of the pieces of a stream of rows. -/
theorem read_lines {python : Python} {streamId : Text} {es : List Emission}
    (hsequence : ∀ e ∈ es, 0 < e.sequence)
    (hshort : ∀ line ∈ headerLine :: es.map (rowLine streamId), line.length ≤ 8 * 1024 * 1024)
    {chunks : List (List UInt8)} (hchunks : [] ∉ chunks)
    (hstream : chunks.flatten <+:
      ((headerLine :: es.map (rowLine streamId)).map (· ++ [FrameBuffer.newline])).flatten) :
    let lines := chunks.flatten.count FrameBuffer.newline
    (lines = 0 → (UnixEventReader.read python chunks {}).2 = []) ∧
      (0 < lines → (es.take (lines - 1)).length = lines - 1 ∧
        ∃ calls, (UnixEventReader.read python chunks {}).2 = .beginSession :: calls ∧
          Reported python streamId (es.take (lines - 1)) calls) := by
  intro lines
  have hplain : ∀ line ∈ headerLine :: es.map (rowLine streamId), Plain line := by
    intro line hline
    rcases List.mem_cons.mp hline with rfl | hline
    · exact plain_headerLine
    · obtain ⟨e, -, rfl⟩ := List.mem_map.mp hline
      exact plain_rowLine streamId e
  have hfits := fits_of_start hplain hshort hstream
  have hcalls := @UnixEventReader.read_calls python {} chunks rfl hchunks List.not_mem_nil hfits
  change _ = (UnixEventReader.onRecords python (FrameBuffer.records chunks.flatten) {}).2 at hcalls
  rw [records_of_start hplain hstream] at hcalls
  refine ⟨fun hlines => ?_, fun hlines => ?_⟩
  · rw [hcalls, show chunks.flatten.count FrameBuffer.newline = 0 from hlines]
    rfl
  · obtain ⟨calls, hstarted, hreported⟩ := @UnixEventReader.onRecords_started python streamId _
      UnixEventReader.onRecord_header _ hsequence _ hlines
    refine ⟨?_, calls, hcalls.trans hstarted, hreported⟩
    have hcount := congrArg List.length
      (Lines.split_of_start (fun line hline => (hplain line hline).newline) hstream).1
    rw [Lines.length_split, List.length_take, List.length_cons, List.length_map] at hcount
    rw [List.length_take]
    omega

/-- Whatever a subscriber of the proxy has been sent, and whatever the pieces in which the dashboard
gets it: a session begins with the header, and from then on every complete line is one row of the
proxy, in the order of their numbers, that is either taken over or complained about. Only a row
whose statistics the decoder of JSON breaks down on ends the reading. -/
theorem read_subscriber (python : Python) (streamId : Text) (es : ℕ → Env × Happening) (k id : ℕ)
    (chunks : List (List UInt8)) (hchunks : [] ∉ chunks)
    (hsent : chunks.flatten <+:
      (((Server.machine streamId).state es k).subscribers id).written.flatten) :
    let s := (Server.machine streamId).state es k
    let lines := chunks.flatten.count FrameBuffer.newline
    let rows := (s.broadcasts.drop (s.subscribers id).since).take (lines - 1)
    (lines = 0 → (UnixEventReader.read python chunks {}).2 = []) ∧
      (0 < lines → rows.length = lines - 1 ∧
        ∃ calls, (UnixEventReader.read python chunks {}).2 = .beginSession :: calls ∧
          Reported python streamId rows calls) := by
  intro s lines rows
  have hserved := (Server.keeps_state streamId es k).served
  have hstream : s.streamId = streamId := Server.state_streamId streamId es k
  have htracks : Tracks streamId s.broadcasts (s.subscribers id) := hstream ▸ hserved.tracks id
  have hsequence : ∀ e ∈ s.broadcasts, 0 < e.sequence := by
    intro e he
    obtain ⟨i, hi⟩ := List.mem_iff_getElem?.mp he
    rw [hserved.numbered i e hi]
    exact Nat.succ_pos i
  rcases htracks.log with hnone | ⟨count, -, hlog⟩
  · have hempty : chunks.flatten = [] := by
      rw [show (((Server.machine streamId).state es k).subscribers id).written = [] from hnone]
        at hsent
      exact List.prefix_nil.mp hsent
    have hchunks' : chunks = [] := by
      cases chunks with
      | nil => rfl
      | cons chunk chunks =>
          rw [List.flatten_cons, List.append_eq_nil_iff] at hempty
          exact absurd (hempty.1 ▸ List.mem_cons_self) hchunks
    have hlines : lines = 0 := by
      change chunks.flatten.count FrameBuffer.newline = 0
      rw [hempty]
      rfl
    refine ⟨fun _ => ?_, fun h => absurd hlines h.ne'⟩
    rw [hchunks']
    rfl
  · set sent := (s.broadcasts.drop (s.subscribers id).since).take count with hrows
    rw [handed_eq, ← hrows] at hlog
    have hshort : ∀ line ∈ headerLine :: sent.map (rowLine streamId),
        line.length ≤ 8 * 1024 * 1024 := by
      intro line hline
      have hmem : line ++ [FrameBuffer.newline] ∈ (s.subscribers id).written := by
        rw [hlog]
        exact List.mem_map_of_mem hline
      have hsize := htracks.sizes _ hmem
      rw [List.length_append] at hsize
      exact (Nat.le_add_right _ _).trans hsize
    have hpositive : ∀ e ∈ sent, 0 < e.sequence :=
      fun e he => hsequence e (List.mem_of_mem_drop (List.mem_of_mem_take he))
    rw [show (((Server.machine streamId).state es k).subscribers id).written = _ from hlog] at hsent
    obtain ⟨hzero, hsome⟩ := @read_lines python _ _ hpositive hshort _ hchunks hsent
    refine ⟨hzero, fun hlines => ?_⟩
    obtain ⟨hlength, hreported⟩ := hsome hlines
    have hsame : sent.take (lines - 1) = rows := by
      have hle := hlength
      rw [hrows, List.take_take, List.length_take] at hle
      change min (min (lines - 1) count) _ = lines - 1 at hle
      rw [hrows, List.take_take, Nat.min_eq_left (by omega)]
    rw [← hsame]
    exact ⟨hlength, hreported⟩

/-- An event of the daemon with a template id that is no number. -/
def oddBlock : Row := { event := bytes "zmq_new_block", templateId := bytes "x" }

def quiet : Env where
  now _ := ⟨2024, 1, 1, 0, 0, 0, 0⟩

/-- A subscriber comes, and both events happen. -/
def twoBlocks : ℕ → Env × Happening :=
  follow [(quiet, .accept true), (quiet, .publish newBlock), (quiet, .publish oddBlock)]
    (quiet, .stop)

def twoBlocksServer (k : ℕ) : Server :=
  (Server.machine (List.replicate 32 0x61)).state twoBlocks k

/-- What the subscriber is handed are three lines. -/
theorem twoBlocks_lines :
    (∀ k < 3, (twoBlocksServer k).running = true ∧ (twoBlocksServer k).eventSequence = k - 1) ∧
      (twoBlocksServer 1).broadcasts.length = 0 ∧
      ((twoBlocksServer 3).subscribers 0).since = 0 ∧
      (((twoBlocksServer 3).subscribers 0).written.flatten).count FrameBuffer.newline = 3 := by
  decide +kernel

theorem twoBlocks_broadcasts : (twoBlocksServer 3).broadcasts =
    [⟨1, ⟨2024, 1, 1, 0, 0, 0, 0⟩, newBlock⟩, ⟨2, ⟨2024, 1, 1, 0, 0, 0, 0⟩, oddBlock⟩] := by
  obtain ⟨hserver, hnone, -, -⟩ := twoBlocks_lines
  obtain ⟨hrunning, hsequence⟩ := forall₂_and.mp hserver
  have hpublish : ∀ k row, twoBlocks k = (quiet, .publish row) →
      twoBlocksServer (k + 1) = (twoBlocksServer k).publish quiet row := by
    intro k row hk
    unfold twoBlocksServer
    rw [Machine.state_succ, hk]
    rfl
  have hfirst : twoBlocksServer 2 = (twoBlocksServer 1).publish quiet newBlock := hpublish 1 _ rfl
  have hsecond : twoBlocksServer 3 = (twoBlocksServer 2).publish quiet oddBlock := hpublish 2 _ rfl
  rw [hsecond, Server.publish_broadcasts quiet (hrunning 2 (by decide)) rfl (by decide),
    hsequence 2 (by decide), hfirst,
    Server.publish_broadcasts quiet (hrunning 1 (by decide)) rfl (by decide),
    hsequence 1 (by decide), List.eq_nil_of_length_eq_zero hnone]
  rfl

theorem not_passes_oddBlock (fields : ParsedRow) : ¬ Passes asciiPython (List.replicate 32 0x61) 2
    ⟨2024, 1, 1, 0, 0, 0, 0⟩ oddBlock fields := by
  rintro ⟨hreads, -, haccepted⟩
  have htemplate : fields .templateId = ['x'] := utf8_injective (hreads .templateId)
  have hnumber := haccepted.template (by rw [htemplate]; exact List.cons_ne_nil _ _)
  rw [htemplate] at hnumber
  exact absurd hnumber (by decide +kernel)

theorem answers_newBlock {call : Call} (h : Answers asciiPython (List.replicate 32 0x61)
    ⟨1, ⟨2024, 1, 1, 0, 0, 0, 0⟩, newBlock⟩ call) : call = .ingest newBlockFields := by
  rcases h with ⟨fields, rfl, hreads, -⟩ | ⟨-, -, hnot⟩
  · rw [reads_unique hreads passes_newBlock.1]
  · exact absurd passes_newBlock (hnot newBlockFields)

theorem answers_oddBlock {call : Call} (h : Answers asciiPython (List.replicate 32 0x61)
    ⟨2, ⟨2024, 1, 1, 0, 0, 0, 0⟩, oddBlock⟩ call) :
    ∃ problem, call = .protocolError (.record problem) := by
  rcases h with ⟨fields, -, hpasses⟩ | ⟨problem, rfl, -⟩
  · exact absurd hpasses (not_passes_oddBlock fields)
  · exact ⟨problem, rfl⟩

theorem readable_of_nil {python : Python} {streamId : Text} {e : Emission}
    (hstats : e.row.shown streamId e.sequence e.now .verifierStatsJson = []) :
    ¬ Unreadable python streamId e := by
  rintro ⟨fields, hreads, hbreakdown⟩
  have hempty : fields .verifierStatsJson = [] :=
    utf8_injective ((hreads .verifierStatsJson).trans hstats)
  unfold statsBreakdown at hbreakdown
  rw [hempty] at hbreakdown
  exact Bool.false_ne_true hbreakdown

/-- The first event is ingested, the second one complained about. -/
theorem read_subscriber_rows : ∃ problem,
    (UnixEventReader.read asciiPython [((twoBlocksServer 3).subscribers 0).written.flatten] {}).2 =
      [.beginSession, .ingest newBlockFields, .protocolError (.record problem)] := by
  obtain ⟨-, -, hsince, hlines⟩ := twoBlocks_lines
  have hsome : ((twoBlocksServer 3).subscribers 0).written.flatten ≠ [] := by
    intro hnone
    rw [hnone] at hlines
    exact absurd hlines (by decide)
  have hread := read_subscriber asciiPython (List.replicate 32 0x61) twoBlocks 3 0
    [((twoBlocksServer 3).subscribers 0).written.flatten]
    (fun hnone => hsome (List.mem_singleton.mp hnone).symm)
    (by unfold twoBlocksServer; exact ⟨[], by simp⟩)
  unfold twoBlocksServer at hlines hsince hread ⊢
  have hbroadcasts := twoBlocks_broadcasts
  unfold twoBlocksServer at hbroadcasts
  dsimp only at hread
  rw [List.flatten_singleton, hlines, hsince, hbroadcasts] at hread
  obtain ⟨-, calls, hcalls, hreported⟩ := hread.2 (by decide)
  rw [hcalls]
  change Reported _ _ [_, _] calls at hreported
  cases hreported with
  | fatal es h => exact absurd h (readable_of_nil rfl)
  | next hfirst hlater =>
      cases hlater with
      | fatal es h => exact absurd h (readable_of_nil rfl)
      | next hsecond hlater =>
          cases hlater
          obtain ⟨problem, rfl⟩ := answers_oddBlock hsecond
          rw [answers_newBlock hfirst]
          exact ⟨problem, rfl⟩

end XmrigProxy.Dashboard
