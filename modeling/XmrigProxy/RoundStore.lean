import Mathlib.Algebra.GroupWithZero.Nat
import Mathlib.Data.List.Basic
import Mathlib.Data.Nat.Notation
import Mathlib.Logic.Function.Basic
import Mathlib.Tactic.Common

/-! The statistics store of the event dashboard: rounds, accepted blocks and credited work. A round
closes with the share that found its block, or by recovery when that share may have been missed.
The table of the shares is that of the archive, which decides nothing here. -/
namespace XmrigProxy

namespace SQLiteStore

inductive EventName where
  | shareResult
  | submitBlockResult
  | other
  deriving DecidableEq, Repr

inductive RowStatus where
  | accepted
  | acceptedLocal
  | acceptedUpstream
  | other
  deriving DecidableEq, Repr

/-- A parsed row; numbers that are missing or negative count as zero. -/
structure EventRow where
  event : EventName
  status : RowStatus := .other
  streamId : String := ""
  eventSeq : ℕ
  timeUtc : String := ""
  sourceId : String := ""
  templateId : String := ""
  jobId : String := ""
  shareId : String := ""
  shareDiff : ℕ := 0
  minerTargetDiff : ℕ := 0
  networkTargetDiff : ℕ := 0
  auditSize : ℕ := 0
  deriving DecidableEq, Repr

structure Round where
  id : ℕ
  creditedHashes : ℕ := 0
  observedDiffSum : ℕ := 0
  acceptedShares : ℕ := 0
  coverageComplete : Bool := true
  closingBlockId : Option ℕ := none
  active : Bool := true
  deriving DecidableEq, Repr

structure Block (κ : Type) where
  id : ℕ
  eventKey : String × ℕ
  roundId : ℕ
  shareId : String
  sourceId : String
  jobId : String
  accepted : Bool
  correlationKey : κ
  auditSize : ℕ
  roundClosed : Bool := false
  deriving DecidableEq, Repr

/-- A share that was credited, under the key of its stream, and the round that got it. -/
structure Credit where
  streamKey : String
  row : EventRow
  roundId : ℕ
  deriving DecidableEq, Repr

/-- A round that was closed, and the block that closed it. -/
structure Closing where
  roundId : ℕ
  blockId : ℕ
  deriving DecidableEq, Repr

/-- The limits of the store, and the hash that its keys are built with. -/
structure Settings (κ : Type) where
  bigShareDifficulty : ℕ := 20000000000
  roundTopLimit : ℕ := 1000
  maxNonAccepted : ℕ := 1000
  maxNonAcceptedBytes : ℕ := 64 * 1024 * 1024
  digest : List String → κ

/-- The tables. The last two fields only remember what happened, nothing reads them. -/
structure Store (κ : Type) where
  tracking : Bool := false
  runId : String := ""
  rounds : List Round := []
  blocks : List (Block κ) := []
  position : String → Option ℕ := fun _ => none
  currentRoundId : ℕ := 0
  creditedHashesTotal : ℕ := 0
  observedDiffTotal : ℕ := 0
  eventCoverageComplete : Bool := true
  nextRoundId : ℕ := 1
  nextBlockId : ℕ := 1
  closings : List Closing := []
  credits : List Credit := []

variable {κ : Type} (cfg : Settings κ)

def correlationKey (row : EventRow) : κ :=
  cfg.digest [row.streamId, row.sourceId, row.shareId, row.jobId, row.templateId]

namespace Store

/-- A row without a stream is known by the process and the connection that read it. -/
def streamKey (s : Store κ) (row : EventRow) (viewerSession : ℕ) : String :=
  if row.streamId ≠ "" then row.streamId else "v2-" ++ s.runId ++ "-" ++ toString viewerSession

def updateRound (id : ℕ) (f : Round → Round) (s : Store κ) : Store κ :=
  { s with rounds := s.rounds.map fun r => if r.id = id then f r else r }

def updateBlock (id : ℕ) (f : Block κ → Block κ) (s : Store κ) : Store κ :=
  { s with blocks := s.blocks.map fun b => if b.id = id then f b else b }

def insertRound (coverageComplete : Bool) (s : Store κ) : Store κ :=
  { s with
    rounds := s.rounds ++ [{ id := s.nextRoundId, coverageComplete }]
    currentRoundId := s.nextRoundId
    nextRoundId := s.nextRoundId + 1 }

def findRound (s : Store κ) (id : ℕ) : Option Round := s.rounds.find? fun r => r.id = id

def findBlock (s : Store κ) (id : ℕ) : Option (Block κ) := s.blocks.find? fun b => b.id = id

theorem mem_of_findRound {s : Store κ} {id : ℕ} {r : Round} (h : s.findRound id = some r) :
    r ∈ s.rounds ∧ r.id = id := by
  unfold findRound at h
  have hid := List.find?_some h
  exact ⟨List.mem_of_find?_eq_some h, by simpa using hid⟩

theorem mem_of_findBlock {s : Store κ} {id : ℕ} {b : Block κ} (h : s.findBlock id = some b) :
    b ∈ s.blocks ∧ b.id = id := by
  unfold findBlock at h
  have hid := List.find?_some h
  exact ⟨List.mem_of_find?_eq_some h, by simpa using hid⟩

def markRound (id : ℕ) (s : Store κ) : Store κ :=
  s.updateRound id fun r => { r with coverageComplete := false }

def markIncomplete (id : ℕ) (s : Store κ) : Store κ :=
  { s.markRound id with eventCoverageComplete := false }

end Store

def submissionMatches (block : Block κ) (row : EventRow) : Bool :=
  (row.shareId ≠ "" && block.shareId = row.shareId) ||
    (row.jobId ≠ "" && block.jobId = row.jobId && block.sourceId = row.sourceId)

/-- The share that won the block of the round, so that it will close the round itself. -/
def closesItself (block : Block κ) (incoming : Option EventRow) : Bool :=
  match incoming with
  | none => false
  | some row =>
      row.event = .shareResult && row.status = .acceptedUpstream && submissionMatches block row

/-- Closes a round whose block was accepted, as incomplete. -/
def recoverClosingRound (incoming : Option EventRow) (s : Store κ) : Store κ :=
  match s.rounds.reverse.find? fun r => r.active && r.closingBlockId.isSome with
  | none => s
  | some round => match round.closingBlockId.bind s.findBlock with
    | none => s.markIncomplete round.id
    | some block =>
        if closesItself block incoming then s
        else
          let s := s.updateRound round.id fun r =>
            { r with
              active := false
              coverageComplete := false }
          let s := s.updateBlock block.id fun b => { b with roundClosed := true }
          let s := { s with closings := s.closings ++ [Closing.mk round.id block.id] }
          { s.insertRound false with eventCoverageComplete := false }

/-- Streams start at one, and every row counts one up. -/
def sequenceGap (row : EventRow) : Option ℕ → Bool
  | none => row.streamId ≠ "" && row.eventSeq ≠ 1
  | some previous => row.eventSeq ≠ previous + 1

/-- Before a row that does not follow the last one of its stream, work may have been missed. -/
def noteGap (row : EventRow) (gap : Bool) (s : Store κ) : Store κ :=
  if row.streamId = "" || gap then
    recoverClosingRound (some row) (s.markIncomplete s.currentRoundId)
  else s

/-- Rows that were seen are ignored. -/
def observePosition (row : EventRow) (viewerSession : ℕ) (s : Store κ) : Option (Store κ) :=
  let key := s.streamKey row viewerSession
  let previous := s.position key
  if previous.any fun last => row.eventSeq ≤ last then none
  else
    let s := noteGap row (sequenceGap row previous) s
    some { s with position := Function.update s.position key (some row.eventSeq) }

def closeRound (roundId blockId : ℕ) (s : Store κ) : Store κ :=
  let s := s.updateRound roundId fun r =>
    { r with
      active := false
      closingBlockId := some blockId }
  let s := s.updateBlock blockId fun b => { b with roundClosed := true }
  let s := { s with closings := s.closings ++ [Closing.mk roundId blockId] }
  s.insertRound true

/-- Adds the work of a share to a round and to the totals. -/
def creditRound (key : String) (row : EventRow) (roundId : ℕ) (s : Store κ) : Store κ :=
  let s := s.updateRound roundId fun r =>
    { r with
      creditedHashes := r.creditedHashes + row.minerTargetDiff
      observedDiffSum := r.observedDiffSum + row.shareDiff
      acceptedShares := r.acceptedShares + 1 }
  { s with
    creditedHashesTotal := s.creditedHashesTotal + row.minerTargetDiff
    observedDiffTotal := s.observedDiffTotal + row.shareDiff
    credits := s.credits ++ [Credit.mk key row roundId] }

def isAcceptedShare (row : EventRow) : Bool :=
  row.event = .shareResult && (row.status = .acceptedLocal || row.status = .acceptedUpstream)

/-- The newest blocks that were not accepted, within both budgets. -/
def newestNonAccepted (blocks : List (Block κ)) : List ℕ :=
  let newest := (blocks.filter fun b => !b.accepted).reverse
  let sums := newest.inits.tail.map fun l => (l.map Block.auditSize).sum
  ((newest.zip sums).take cfg.maxNonAccepted).filterMap fun p =>
    if p.2 ≤ cfg.maxNonAcceptedBytes then some p.1.id else none

def pruneBlocks (s : Store κ) : Store κ :=
  { s with blocks := s.blocks.filter fun b => b.accepted || b.id ∈ newestNonAccepted cfg s.blocks }

/-- The block of an accepted submission will close the round that is current. -/
def insertBlock (key : String) (row : EventRow) (s : Store κ) : Store κ :=
  if s.blocks.any fun b => b.eventKey = (key, row.eventSeq) then s
  else
    let accepted : Bool := row.status = .accepted
    let block : Block κ :=
      { id := s.nextBlockId
        eventKey := (key, row.eventSeq)
        roundId := s.currentRoundId
        shareId := row.shareId
        sourceId := row.sourceId
        jobId := row.jobId
        accepted
        correlationKey := correlationKey cfg row
        auditSize := row.auditSize }
    let s :=
      { s with
        blocks := s.blocks ++ [block]
        nextBlockId := s.nextBlockId + 1 }
    if accepted then s.updateRound block.roundId fun r => { r with closingBlockId := some block.id }
    else s

def submissionEvent (key : String) (row : EventRow) (s : Store κ) : Store κ :=
  if row.event = .submitBlockResult then pruneBlocks cfg (insertBlock cfg key row s) else s

/-- What the writer does when messages were dropped. -/
def handleDrop (s : Store κ) : Store κ := s.markIncomplete s.currentRoundId

def handleIncomplete (s : Store κ) : Store κ :=
  recoverClosingRound none (s.markIncomplete s.currentRoundId)

/-- The round that the process goes on with; only on a new database it was just opened. -/
def resumeRound (boundary : Bool) (s : Store κ) : Store κ :=
  match s.rounds.reverse.find? Round.active with
  | none => s.insertRound !boundary
  | some current =>
      let s := if boundary then s else s.markRound current.id
      { s with currentRoundId := current.id }

/-- A dashboard starts on a new database or on one that an earlier process left. -/
def initializeStore (runId : String) (s : Store κ) : Store κ :=
  let boundary := !s.tracking
  let s := resumeRound boundary
    { s with
      runId
      tracking := true
      eventCoverageComplete := boundary }
  if boundary then s else recoverClosingRound none s

/-- What the store may meet. -/
inductive Input where
  | event (row : EventRow) (viewerSession : ℕ)
  | incomplete
  | dropped
  | restart (runId : String)
  deriving DecidableEq, Repr

/-- The store of the first process. -/
def start (runId : String) : Store κ := initializeStore runId {}

variable [DecidableEq κ]

/-- The accepted block of the submission that the share belongs to. -/
def correlatedBlock (row : EventRow) (s : Store κ) : Option (Block κ) :=
  if row.status = .acceptedUpstream then
    s.blocks.reverse.find? fun b => b.accepted && b.correlationKey = correlationKey cfg row
  else none

/-- A winning share is credited to the round of its block, and closes it unless it is closed. -/
def acceptedShare (key : String) (row : EventRow) (s : Store κ) : Store κ :=
  if isAcceptedShare row then
    if row.minerTargetDiff = 0 then s.markIncomplete s.currentRoundId
    else
      let s := if row.networkTargetDiff = 0 then s.markIncomplete s.currentRoundId else s
      let block := correlatedBlock cfg row s
      let roundId := (block.map Block.roundId).getD s.currentRoundId
      if (s.findRound roundId).isNone then s
      else
        let s := creditRound key row roundId s
        match block with
        | some block => if block.roundClosed then s else closeRound roundId block.id s
        | none => s
  else s

def handleEvent (row : EventRow) (viewerSession : ℕ) (s : Store κ) : Store κ :=
  match observePosition row viewerSession s with
  | none => s
  | some observed =>
      let key := s.streamKey row viewerSession
      acceptedShare cfg key row (submissionEvent cfg key row observed)

def step (s : Store κ) : Input → Store κ
  | .event row viewerSession => handleEvent cfg row viewerSession s
  | .incomplete => handleIncomplete s
  | .dropped => handleDrop s
  | .restart runId => initializeStore runId s

def run (inputs : List Input) (s : Store κ) : Store κ := inputs.foldl (step cfg) s

end SQLiteStore

end XmrigProxy
