import XmrigProxy.Library.Machine
import XmrigProxy.RoundStore
import Mathlib.Data.Option.Basic

/-! How the event stream reaches the statistics store. The reader notices what is missing, the queue
between the threads has room for some messages only, and the writer applies them in batches. -/
namespace XmrigProxy

namespace Dashboard

open SQLiteStore

variable {κ : Type}

/-- What waits for the writer. The samples of the other pollers only take up room. -/
inductive Message where
  | event (row : EventRow) (viewerSession : ℕ)
  | incomplete
  | sample (payload : String)
  deriving DecidableEq, Repr

structure QueueLimits where
  rows : ℕ := 4096
  bytes : ℕ := 32 * 1024 * 1024
  size : Message → ℕ

/-- A row that the store applied. -/
structure Position where
  process : ℕ
  stream : String
  sequence : ℕ
  deriving DecidableEq, Repr

/-- The store, and a memory of the rows: which were applied, and which opened and closed each
round. -/
structure Archive (κ : Type) where
  store : Store κ
  process : ℕ := 0
  applied : List Position := []
  opened : ℕ → Option Position := fun _ => none
  closed : ℕ → Option Position := fun _ => none

namespace Archive

def advance (position : Option Position) (store : Store κ) (a : Archive κ) : Archive κ :=
  let closings := (store.closings.drop a.store.closings.length).map Closing.roundId
  { a with
    store
    applied := a.applied ++ position.toList
    opened := fun id =>
      if a.store.nextRoundId ≤ id ∧ id < store.nextRoundId then position else a.opened id
    closed := fun id => if id ∈ closings then position else a.closed id }

variable [DecidableEq κ] (cfg : Settings κ)

/-- What the writer does with a message. -/
def handle (a : Archive κ) : Message → Archive κ
  | .event row session => match observePosition row session a.store with
    | none => a
    | some _ => a.advance
        (some ⟨a.process, a.store.streamKey row session, row.eventSeq⟩)
        (handleEvent cfg row session a.store)
  | .incomplete => a.advance none (handleIncomplete a.store)
  | .sample _ => a

def drop (a : Archive κ) : Archive κ := a.advance none (handleDrop a.store)

def restart (runId : String) (a : Archive κ) : Archive κ :=
  { a.advance none (initializeStore runId a.store) with process := a.process + 1 }

end Archive

/-- The writer takes messages from the queue, applies them, and then gives their room back. -/
inductive Writer where
  | collecting (batch : List Message)
  | collected (batch : List Message)
  | releasing (bytes : ℕ)
  deriving DecidableEq, Repr

def Writer.batch : Writer → List Message
  | .collecting batch => batch
  | .collected batch => batch
  | .releasing _ => []

structure State (κ : Type) where
  archive : Archive κ
  queue : List Message := []
  queueBytes : ℕ := 0
  dropPending : Bool := false
  writer : Writer := .collecting []
  sourceSequence : Option ℕ := none
  session : ℕ := 0
  /-- The stream of the proxy that the reader is connected to. -/
  connection : Option String := none
  /-- The streams that there were, the newest first; nothing reads them. -/
  streams : List String := []
  /-- What the reader is about to put into the queue. -/
  pending : List Message := []

inductive Event where
  | connect (stream : String)
  | ingest (row : EventRow)
  | protocolError
  | endSession
  | enqueue
  | sample (payload : String)
  | take
  | collect
  | apply
  | release
  | restart (runId : String)
  deriving DecidableEq, Repr

/-- A stream identity is 128-bit lowercase hex. -/
def isStreamId (s : String) : Bool :=
  s.length = 32 && s.toList.all fun c => c ∈ "0123456789abcdef".toList

namespace State

variable (limits : QueueLimits)

def overflows (m : Message) (s : State κ) : Bool :=
  limits.bytes < limits.size m || limits.bytes < s.queueBytes + limits.size m ||
    limits.rows ≤ s.queue.length

def enqueue (m : Message) (s : State κ) : State κ :=
  if s.overflows limits m then { s with dropPending := true }
  else
    { s with
      queue := s.queue ++ [m]
      queueBytes := s.queueBytes + limits.size m }

/-- A proxy that was restarted has a new stream, an old one does not come back. -/
def connect (stream : String) (s : State κ) : State κ :=
  if s.connection = none ∧ s.pending = [] ∧ (stream = "" ∨ isStreamId stream) ∧
      (stream = "" ∨ s.streams.head? = some stream ∨ stream ∉ s.streams) then
    { s with
      session := s.session + 1
      connection := some stream
      streams := stream :: s.streams }
  else s

/-- Whether a row follows the last one that was seen, of whatever stream. -/
def follows (row : EventRow) (s : State κ) : Bool :=
  match s.sourceSequence with
  | none => row.eventSeq = 1
  | some previous => row.eventSeq = previous + 1

/-- The rows of a connection are those of its stream. -/
def ingest (row : EventRow) (s : State κ) : State κ :=
  if s.connection = some row.streamId ∧ s.pending = [] ∧ 0 < row.eventSeq then
    { s with
      sourceSequence := some row.eventSeq
      pending := (if s.follows row then [] else [.incomplete]) ++ [.event row s.session] }
  else s

def protocolError (s : State κ) : State κ :=
  if s.pending = [] then { s with pending := [.incomplete] } else s

def endSession (s : State κ) : State κ :=
  if s.connection ≠ none ∧ s.pending = [] then
    { s with
      connection := none
      pending := [.incomplete] }
  else s

def take (s : State κ) : State κ :=
  match s.writer, s.queue with
  | .collecting batch, m :: rest =>
      if batch.length < 256 then
        { s with
          writer := .collecting (batch ++ [m])
          queue := rest }
      else s
  | _, _ => s

/-- A batch ends with the queue, or when it is full. -/
def collect (s : State κ) : State κ :=
  match s.writer with
  | .collecting batch =>
      if batch ≠ [] ∧ (s.queue = [] ∨ batch.length = 256) then { s with writer := .collected batch }
      else s
  | _ => s

variable [DecidableEq κ] (cfg : Settings κ)

/-- A drop is charged to the round that is current when the next batch begins. -/
def charged (s : State κ) : Archive κ := if s.dropPending then s.archive.drop else s.archive

def apply (s : State κ) : State κ :=
  match s.writer with
  | .collected batch =>
      { s with
        archive := batch.foldl (Archive.handle cfg) s.charged
        dropPending := false
        writer := .releasing (batch.map limits.size).sum }
  | _ => s

def release (s : State κ) : State κ :=
  match s.writer with
  | .releasing bytes =>
      { s with
        writer := .collecting []
        queueBytes := s.queueBytes - bytes }
  | _ => s

/-- Only the database survives the process. -/
def restart (runId : String) (s : State κ) : State κ :=
  { archive := s.archive.restart runId
    streams := s.streams }

def step (s : State κ) : Event → State κ
  | .connect stream => s.connect stream
  | .ingest row => s.ingest row
  | .protocolError => s.protocolError
  | .endSession => s.endSession
  | .enqueue => match s.pending with
    | [] => s
    | m :: rest => { s.enqueue limits m with pending := rest }
  | .sample payload => s.enqueue limits (.sample payload)
  | .take => s.take
  | .collect => s.collect
  | .apply => s.apply limits cfg
  | .release => s.release
  | .restart runId => s.restart runId

/-- What the writer has not applied yet. -/
def waiting (s : State κ) : List Message := s.writer.batch ++ s.queue

/-- The archive once the writer has caught up. -/
def eventual (s : State κ) : Archive κ := s.waiting.foldl (Archive.handle cfg) s.charged

end State

variable [DecidableEq κ]

/-- A run starts on a new database. -/
def machine (limits : QueueLimits) (cfg : Settings κ) (runId : String) :
    Machine (State κ) Event Empty where
  init := { archive := { store := start runId } }
  next s e := (s.step limits cfg e, [])

/-- The rows of a stream from one to another one. -/
def stretch (process : ℕ) (stream : String) (first count : ℕ) : List Position :=
  (List.range' first (count + 1)).map (Position.mk process stream)

/-- The rows that opened and closed a round are of one stream and one process, and they and all the
rows between them were applied one after another. -/
def Whole (a : Archive κ) (id : ℕ) : Prop :=
  ∃ process stream first count, a.opened id = some ⟨process, stream, first⟩ ∧
    a.closed id = some ⟨process, stream, first + count⟩ ∧
    stretch process stream first count <:+: a.applied

def CompleteRoundsWhole (a : Archive κ) : Prop :=
  ∀ r ∈ a.store.rounds, r.active = false → r.coverageComplete = true → Whole a r.id

end Dashboard

end XmrigProxy
