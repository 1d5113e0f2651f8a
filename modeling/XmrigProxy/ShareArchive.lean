import XmrigProxy.Library.Numerals
import XmrigProxy.RoundStore

/-! The shares that the store keeps for audit, and the contexts that they refer to. A context is
pending until a kept share refers to it; only pending contexts count for the budgets and are
pruned. -/
namespace XmrigProxy

namespace SQLiteStore

inductive ContextName where
  | templateCached
  | templateDerived
  | jobSent
  | other
  deriving DecidableEq, Repr

/-- A parsed row with the columns that contexts are known by. Difficulties fit in 64 bits. -/
structure AuditRow where
  row : EventRow
  context : ContextName := .other
  minerId : String := ""
  mapperId : String := ""
  shareDiff_lt : row.shareDiff < 2 ^ 64
  context_other : row.event ≠ .other → context = .other
  deriving DecidableEq

/-- What is known of a job: the last rows that derived and sent it. -/
structure JobContext where
  templateDerived : Option AuditRow := none
  jobSent : Option AuditRow := none
  deriving DecidableEq

def JobContext.set (context : JobContext) (row : AuditRow) : JobContext :=
  if row.context = .jobSent then { context with jobSent := some row }
  else { context with templateDerived := some row }

structure Context (κ γ : Type) where
  id : ℕ
  correlationKey : κ
  updatedUtc : String
  retained : Bool := false
  sizeBytes : ℕ
  context : γ
  deriving DecidableEq

/-- A table of contexts, the oldest first. -/
structure Contexts (κ γ : Type) where
  rows : List (Context κ γ) := []
  nextId : ℕ := 1

namespace Contexts

variable {κ γ : Type}

def pending (t : Contexts κ γ) : List (Context κ γ) := t.rows.filter fun c => !c.retained

/-- The newest pending contexts stay as long as they fit in both budgets. -/
def prune (maxCount maxBytes : ℕ) (t : Contexts κ γ) : Contexts κ γ :=
  if t.pending.length ≤ maxCount ∧ (t.pending.map Context.sizeBytes).sum ≤ maxBytes then t
  else
    let newest := t.pending.reverse
    let newestBytes := newest.inits.tail.map fun l => (l.map Context.sizeBytes).sum
    let doomed := ((newest.zip newestBytes).zipIdx 1).filterMap fun ((c, bytes), rn) =>
      if maxCount < rn ∨ maxBytes < bytes then some c.id else none
    { t with rows := t.rows.filter fun c => c.id ∉ doomed }

variable [DecidableEq κ]

def find (t : Contexts κ γ) (key : κ) : Option (Context κ γ) :=
  t.rows.find? fun c => c.correlationKey = key

/-- A known context is replaced, and stays retained if it was. -/
def upsert (key : κ) (updatedUtc : String) (sizeBytes : ℕ) (context : γ) (t : Contexts κ γ) :
    Contexts κ γ :=
  if t.rows.any fun c => c.correlationKey = key then
    { t with
      rows := t.rows.map fun c =>
        if c.correlationKey = key then
          { c with
            updatedUtc
            sizeBytes
            context }
        else c }
  else
    { rows := t.rows ++ [⟨t.nextId, key, updatedUtc, false, sizeBytes, context⟩]
      nextId := t.nextId + 1 }

/-- Looks again whether the contexts under `keys` are referred to. -/
def refresh (keys : List κ) (refers : κ → Bool) (t : Contexts κ γ) : Contexts κ γ :=
  { t with
    rows := t.rows.map fun c =>
      if c.correlationKey ∈ keys then { c with retained := refers c.correlationKey } else c }

end Contexts

/-- A share with what it was credited for, and the keys of its contexts. -/
structure CreditedShare (κ : Type) where
  credit : Credit
  jobContextKey : κ
  templateContextKey : κ
  deriving DecidableEq

namespace CreditedShare

variable {κ : Type}

def eventKey (x : CreditedShare κ) : String × ℕ := (x.credit.streamKey, x.credit.row.eventSeq)

def roundId (x : CreditedShare κ) : ℕ := x.credit.roundId

def shareDiff (x : CreditedShare κ) : ℕ := x.credit.row.shareDiff

/-- Numbers are kept as text, which is compared as text. -/
def shareDiffSort (x : CreditedShare κ) : List Char :=
  Numerals.zfill 20 (Nat.toDigits 10 x.shareDiff)

end CreditedShare

/-- A row of the share table. -/
structure ShareRow (κ : Type) where
  share : CreditedShare κ
  isBig : Bool
  isTop : Bool := true
  jobContextSnapshot : Option JobContext
  deriving DecidableEq

/-- The budgets of pending contexts, the sizes of their serialized texts, and the text of a key. -/
structure AuditSettings (κ : Type) extends Settings κ where
  maxPendingJobContexts : ℕ := 10000
  maxPendingJobContextBytes : ℕ := 64 * 1024 * 1024
  maxPendingTemplateContexts : ℕ := 1024
  maxPendingTemplateContextBytes : ℕ := 64 * 1024 * 1024
  templateSize : AuditRow → ℕ
  jobSize : JobContext → ℕ
  hex : κ → String

/-- The store with its audit tables; `credited` only remembers what happened. -/
structure Archive (κ : Type) where
  store : Store κ
  shares : List (ShareRow κ) := []
  jobContexts : Contexts κ JobContext := {}
  templateContexts : Contexts κ AuditRow := {}
  credited : List (CreditedShare κ) := []

section Keys

variable {κ : Type} (cfg : AuditSettings κ)

def templateKey (streamKey : String) (row : AuditRow) : κ :=
  cfg.digest [streamKey, row.row.sourceId, row.row.templateId]

def jobBaseKey (streamKey : String) (row : AuditRow) : κ :=
  cfg.digest [streamKey, row.row.sourceId, row.row.templateId, row.row.jobId]

/-- A job that was sent is known by the miner and the mapper as well. -/
def jobKey (streamKey : String) (row : AuditRow) : κ :=
  if row.minerId = "" ∧ row.mapperId = "" then jobBaseKey cfg streamKey row
  else cfg.digest [cfg.hex (jobBaseKey cfg streamKey row), row.minerId, row.mapperId]

end Keys

namespace Archive

variable {κ : Type} [DecidableEq κ] (cfg : AuditSettings κ)

def pruneTemplateContexts (t : Contexts κ AuditRow) : Contexts κ AuditRow :=
  t.prune cfg.maxPendingTemplateContexts cfg.maxPendingTemplateContextBytes

def pruneJobContexts (t : Contexts κ JobContext) : Contexts κ JobContext :=
  t.prune cfg.maxPendingJobContexts cfg.maxPendingJobContextBytes

def templateContextEvent (streamKey : String) (row : AuditRow) (a : Archive κ) : Archive κ :=
  if row.context = .templateCached ∧ row.row.templateId ≠ "" then
    { a with
      templateContexts := pruneTemplateContexts cfg
        (a.templateContexts.upsert (templateKey cfg streamKey row) row.row.timeUtc
          (cfg.templateSize row) row) }
  else a

/-- What a row is added to: the context under its own key, else the one of the job without a
miner. -/
def knownContext (streamKey : String) (row : AuditRow) (t : Contexts κ JobContext) : JobContext :=
  match t.find (jobKey cfg streamKey row) with
  | some existing => existing.context
  | none =>
      if row.context = .jobSent ∧ jobKey cfg streamKey row ≠ jobBaseKey cfg streamKey row then
        ((t.find (jobBaseKey cfg streamKey row)).map Context.context).getD {}
      else {}

def jobContextEvent (streamKey : String) (row : AuditRow) (a : Archive κ) : Archive κ :=
  if (row.context = .templateDerived ∨ row.context = .jobSent) ∧ row.row.jobId ≠ "" then
    let context := (knownContext cfg streamKey row a.jobContexts).set row
    { a with
      jobContexts := pruneJobContexts cfg
        (a.jobContexts.upsert (jobKey cfg streamKey row) row.row.timeUtc (cfg.jobSize context)
          context) }
  else a

/-- Higher difficulties first, and earlier ones among the same. -/
def ranksBefore (x y : ShareRow κ) : Bool :=
  y.share.shareDiffSort < x.share.shareDiffSort ||
    (x.share.shareDiffSort = y.share.shareDiffSort &&
      x.share.credit.row.timeUtc ≤ y.share.credit.row.timeUtc)

/-- The keys of the highest shares of a round. -/
def rankedKeys (limit roundId : ℕ) (shares : List (ShareRow κ)) : List (String × ℕ) :=
  (((shares.filter fun x => x.share.roundId = roundId).mergeSort ranksBefore).take limit).map
    fun x => x.share.eventKey

/-- Shares are told apart by the stream and the sequence number of their event. -/
instance lawfulEventKey : LawfulBEq (String × ℕ) := inferInstance

/-- No share of the round is marked but the ranked ones. -/
def markTop (roundId : ℕ) (ranked : List (String × ℕ)) (shares : List (ShareRow κ)) :
    List (ShareRow κ) :=
  (shares.map fun x => if x.share.roundId = roundId then { x with isTop := false } else x).map
    fun x => if x.share.eventKey ∈ ranked then { x with isTop := true } else x

def isEvicted (roundId : ℕ) (x : ShareRow κ) : Bool :=
  x.share.roundId = roundId && !x.isTop && !x.isBig

/-- The shares of a round are ranked anew, and those that are neither top nor big are deleted. -/
def retainShare (streamKey : String) (row : AuditRow) (roundId : ℕ) (a : Archive κ) : Archive κ :=
  let share : CreditedShare κ :=
    ⟨⟨streamKey, row.row, roundId⟩, jobKey cfg streamKey row, templateKey cfg streamKey row⟩
  let shareRow : ShareRow κ :=
    { share
      isBig := cfg.bigShareDifficulty ≤ row.row.shareDiff
      jobContextSnapshot := (a.jobContexts.find share.jobContextKey).map Context.context }
  let shares := if a.shares.any fun x => x.share.eventKey = share.eventKey then a.shares
    else a.shares ++ [shareRow]
  let marked := markTop roundId (rankedKeys cfg.roundTopLimit roundId shares) shares
  let evicted := marked.filter (isEvicted roundId)
  let shares := marked.filter fun x => !isEvicted roundId x
  let jobContextKeys := share.jobContextKey :: evicted.map fun x => x.share.jobContextKey
  let templateContextKeys := share.templateContextKey :: evicted.map fun x =>
    x.share.templateContextKey
  { a with
    shares
    jobContexts := pruneJobContexts cfg (a.jobContexts.refresh jobContextKeys
      fun key => shares.any fun x => x.share.jobContextKey = key)
    templateContexts := pruneTemplateContexts cfg (a.templateContexts.refresh templateContextKeys
      fun key => shares.any fun x => x.share.templateContextKey = key)
    credited := a.credited ++ [share] }

/-- The round that a row is credited to, if it is credited at all. -/
def creditedRound (row : EventRow) (s : Store κ) : Option ℕ :=
  if isAcceptedShare row ∧ row.minerTargetDiff ≠ 0 then
    let roundId := ((correlatedBlock cfg.toSettings row s).map Block.roundId).getD s.currentRoundId
    (s.findRound roundId).map fun _ => roundId
  else none

def handleEvent (row : AuditRow) (viewerSession : ℕ) (a : Archive κ) : Archive κ :=
  match observePosition row.row viewerSession a.store with
  | none => a
  | some observed =>
      let streamKey := a.store.streamKey row.row viewerSession
      let a := templateContextEvent cfg streamKey row a
      let a := jobContextEvent cfg streamKey row a
      let store := submissionEvent cfg.toSettings streamKey row.row observed
      let a := match creditedRound cfg row.row store with
        | none => a
        | some roundId => retainShare cfg streamKey row roundId a
      { a with store := acceptedShare cfg.toSettings streamKey row.row store }

inductive Input where
  | event (row : AuditRow) (viewerSession : ℕ)
  | incomplete
  | dropped
  | restart (runId : String)
  deriving DecidableEq

def step (a : Archive κ) : Input → Archive κ
  | .event row viewerSession => handleEvent cfg row viewerSession a
  | .incomplete => { a with store := handleIncomplete a.store }
  | .dropped => { a with store := handleDrop a.store }
  | .restart runId => { a with store := initializeStore runId a.store }

def run (inputs : List Input) (a : Archive κ) : Archive κ := inputs.foldl (step cfg) a

def start (runId : String) : Archive κ := { store := SQLiteStore.start runId }

end Archive

end SQLiteStore

end XmrigProxy
