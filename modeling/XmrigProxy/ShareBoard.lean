import XmrigProxy.Library.Lru
import XmrigProxy.Library.Machine
import XmrigProxy.RowParser
import Mathlib.Data.Prod.Lex

/-! What the dashboard remembers of the shares while the rows of the event stream come in: the
context of the latest shares, the best accepted ones, and whether it has seen everything since it
started. -/
namespace XmrigProxy.ShareBoard

open Dashboard (ParsedRow)

/-- A column, or a field that the dashboard adds to a row. -/
inductive Field where
  | column (c : Column)
  | claimedResultHash | claimedShareDiff | computedResultHash | computedShareDiff
  | difficultySource | shareReceivedUtc | verificationEvent | verificationStatus
  | verificationUtc | verifierQueueMs | verifierHashMs | verifierTotalMs
  | connectionUuid | minerLabel
  deriving DecidableEq

/-- A field that is missing is empty. -/
abbrev Row := Field → List Char

abbrev Context := Field → List Char

def rowOf (parsed : ParsedRow) : Row
  | .column c => parsed c
  | _ => []

/-- The session and the identity of a share. -/
abbrev Key := ℕ × List Char

instance lawfulKey : LawfulBEq Key := inferInstance

def inherited : List Field :=
  [.column .minerId, .column .mapperId, .column .worker, .column .sourceId, .column .templateId,
   .column .height, .column .jobId, .column .minerTargetDiff, .column .networkTargetDiff,
   .column .nonce, .column .resultHash, .column .shareDiff, .column .signatureHex, .column .algo,
   .column .seedHash, .column .prevHash, .column .viewTag, .column .extraNonce,
   .claimedResultHash, .claimedShareDiff,
   .computedResultHash, .computedShareDiff,
   .difficultySource, .shareReceivedUtc,
   .verificationEvent, .verificationStatus,
   .verificationUtc, .verifierQueueMs,
   .verifierHashMs, .verifierTotalMs]

def remembered : List Field :=
  [.column .minerId, .column .mapperId, .column .worker, .column .sourceId, .column .templateId,
   .column .height, .column .jobId, .column .minerTargetDiff, .column .networkTargetDiff,
   .column .nonce, .column .signatureHex, .column .algo, .column .seedHash, .column .prevHash,
   .column .viewTag, .column .extraNonce]

def isEvent (name : String) (row : Row) : Bool := row (.column .event) = name.toList

def isStatus (name : String) (row : Row) : Bool := row (.column .status) = name.toList

/-- A row takes what it lacks from the context of its share. -/
def fill (context : Context) (row : Row) : Row := fun f =>
  if f ∈ inherited ∧ row f = [] then context f else row f

def assign (fields : List (Field × List Char)) (context : Context) : Context :=
  fields.foldl (fun context field => Function.update context field.1 field.2) context

/-- What the verifier found. -/
def computed (row : Row) : List (Field × List Char) :=
  (if row (.column .resultHash) ≠ [] then
    [(.column .resultHash, row (.column .resultHash)),
     (.computedResultHash, row (.column .resultHash))] else []) ++
  (if row (.column .shareDiff) ≠ [] then
    [(.column .shareDiff, row (.column .shareDiff)),
     (.computedShareDiff, row (.column .shareDiff))] else [])

def assignments (row : Row) : List (Field × List Char) :=
  if isEvent "share_received" row then
    [(.column .resultHash, row (.column .resultHash)),
     (.column .shareDiff, row (.column .shareDiff)),
     (.claimedResultHash, row (.column .resultHash)),
     (.claimedShareDiff, row (.column .shareDiff)),
     (.difficultySource, "miner_claimed".toList),
     (.shareReceivedUtc, row (.column .timeUtc))]
  else if isEvent "verify_result" row || isEvent "verify_mismatch" row then
    computed row ++
    [(.difficultySource, "verifier_computed".toList),
     (.verificationEvent, row (.column .event)),
     (.verificationStatus, row (.column .status)),
     (.verificationUtc, row (.column .timeUtc)),
     (.verifierQueueMs, row (.column .verifierQueueMs)),
     (.verifierHashMs, row (.column .verifierHashMs)),
     (.verifierTotalMs, row (.column .verifierTotalMs))]
  else if isEvent "verify_error" row then
    [(.verificationEvent, row (.column .event)),
     (.verificationStatus, row (.column .status)),
     (.verificationUtc, row (.column .timeUtc))]
  else []

/-- What a row tells of its share. -/
def remember (row : Row) (context : Option Context) : Context :=
  let context := context.getD fun _ => []
  assign (assignments row) fun f => if f ∈ remembered ∧ row f ≠ [] then row f else context f

structure Item where
  values : Field → List Char
  session : ℕ
  difficulty : ℤ
  viewerSeq : ℕ

def topFields : List Field :=
  [.column .shareDiff, .column .timeUtc, .column .shareId, .column .minerId, .column .mapperId,
   .minerLabel, .connectionUuid, .column .worker, .column .height, .column .status,
   .column .sourceId, .column .templateId, .column .jobId]

/-- The order of the best shares: the greater difficulty, and of equal ones the older. -/
def Item.rank (item : Item) : ℤ ×ₗ ℤ := toLex (item.difficulty, -item.viewerSeq)

def retainedShares : ℕ := 8192

def seenLimit : ℕ := 100000

/-- The digits that `int` reads, and what makes up the name of a connection: `parseUuid` of a stream
identity, and the version 5 UUID of a name in a namespace. -/
structure Env where
  alphabet : Numerals.Alphabet
  topLimit : ℕ
  parseUuid : List Char → Option (List Char)
  uuid5 : List Char → List Char → List Char
  connectionNamespace : List Char

inductive ReaderStatus where
  | starting | connected | disconnected | waiting | degraded | fatal
  deriving DecidableEq

/-- `told`, the rows of the session that told of a share, are read by nothing. -/
structure Board where
  session : ℕ := 0
  viewerSequence : ℕ := 0
  sourceSequence : Option ℤ := none
  connected : Bool := false
  coverageComplete : Bool := false
  readerStatus : ReaderStatus := .starting
  readerMessage : List Char := "waiting for the event socket".toList
  shares : List (Key × Context) := []
  seenAccepted : List Key := []
  top : List Item := []
  told : List (Key × Row) := []

namespace Board

variable (env : Env)

def notice (b : Board) : Board := { b with viewerSequence := b.viewerSequence + 1 }

def resolveIdentity (row : Row) (b : Board) : Row :=
  if row (.column .shareId) = [] then row
  else match Lru.lookup (b.session, row (.column .shareId)) b.shares with
    | none => row
    | some context => fill context row

def sessionName (minerId : List Char) (b : Board) : List Char :=
  "xmrig-proxy/viewer-session/".toList ++ Nat.toDigits 10 b.session ++ "/miner/".toList ++ minerId

def connectionUuid (row : Row) (b : Board) : List Char :=
  let minerId := row (.column .minerId)
  let streamId := row (.column .streamId)
  if minerId = [] then []
  else match if streamId = [] then none else env.parseUuid streamId with
    | none => env.uuid5 env.connectionNamespace (b.sessionName minerId)
    | some name => env.uuid5 name ("xmrig-proxy/miner/".toList ++ minerId)

def minerLabel (row : Row) : List Char :=
  let minerId := row (.column .minerId)
  let mapperId := row (.column .mapperId)
  if minerId = [] then []
  else 'm' :: minerId ++ if mapperId = [] then [] else "/p".toList ++ mapperId

/-- The identity of the connection that a row is about. -/
def label (row : Row) (b : Board) : Row :=
  let uuid := b.connectionUuid env row
  if uuid = [] then row
  else Function.update (Function.update row .connectionUuid uuid) .minerLabel (minerLabel row)

def rememberShare (row : Row) (b : Board) : Board :=
  if row (.column .shareId) = [] then b
  else
    { b with
      shares := Lru.use retainedShares b.shares ((b.session, row (.column .shareId)), remember row)
      told := b.told ++ [((b.session, row (.column .shareId)), row)] }

/-- A share without an identity has that of its row. -/
def identity (row : Row) : List Char :=
  if row (.column .shareId) = [] then "seq:".toList ++ row (.column .eventSeq)
  else row (.column .shareId)

def item (row : Row) (b : Board) : Item where
  values f := if f ∈ topFields then row f else []
  session := b.session
  difficulty := (Numerals.readInt env.alphabet (row (.column .shareDiff))).getD 0
  viewerSeq := b.viewerSequence + 1

def best (items : List Item) : List Item :=
  (items.mergeSort fun a b => decide (b.rank ≤ a.rank)).take env.topLimit

def considerTop (row : Row) (b : Board) : Board :=
  if env.topLimit = 0 ∨ !isEvent "share_result" row then b
  else if !isStatus "accepted_local" row && !isStatus "accepted_upstream" row then b
  else if row (.column .shareDiff) = [] then b
  else
    let key := (b.session, identity row)
    if key ∈ b.seenAccepted then b
    else
      { b with
        seenAccepted := (b.seenAccepted ++ [key]).rtake seenLimit
        top := best env (b.top ++ [b.item env row]) }

/-- The events that tell of a share. -/
def tells (row : Row) : Bool :=
  isEvent "share_received" row || isEvent "verify_result" row || isEvent "verify_mismatch" row ||
    isEvent "verify_error" row

/-- A row that does not follow the one before it is a gap in what was seen. -/
def observeSequence (row : Row) (b : Board) : Board :=
  let sequence := (Numerals.readInt env.alphabet (row (.column .eventSeq))).getD 0
  let b := if sequence = b.sourceSequence.getD 0 + 1 then b
    else notice { b with coverageComplete := false }
  { b with sourceSequence := some sequence }

def ingest (parsed : ParsedRow) (b : Board) : Board :=
  let b := b.observeSequence env (rowOf parsed)
  let resolved := b.label env (b.resolveIdentity (rowOf parsed))
  let b := if tells resolved then b.rememberShare resolved else b
  notice (b.considerTop env resolved)

def beginSession (b : Board) : Board :=
  notice { b with
    session := b.session + 1
    coverageComplete := b.session + 1 = 1
    connected := true
    readerStatus := .connected
    readerMessage := "supported event stream connected".toList
    shares := []
    told := [] }

/-- Something went wrong, and rows may be missing. -/
def interrupted (status : ReaderStatus) (message : List Char) (b : Board) : Board :=
  notice { b with
    coverageComplete := false
    readerStatus := status
    readerMessage := message }

def endSession (message : List Char) (b : Board) : Board :=
  interrupted .disconnected message { b with connected := false }

def waiting (message : List Char) (b : Board) : Board :=
  let changed := b.readerStatus ≠ .waiting ∨ b.readerMessage ≠ message
  let b := { b with
    connected := false
    readerStatus := .waiting
    readerMessage := message }
  if changed then notice b else b

def protocolError (message : List Char) (b : Board) : Board := interrupted .degraded message b

def fatal (message : List Char) (b : Board) : Board :=
  interrupted .fatal message { b with connected := false }

end Board

inductive Happening where
  | beginSession
  | endSession (message : List Char)
  | waiting (message : List Char)
  | protocolError (message : List Char)
  | fatal (message : List Char)
  | ingest (row : ParsedRow)

namespace Board

def step (env : Env) : Happening → Board → Board
  | .beginSession => beginSession
  | .endSession message => endSession message
  | .waiting message => waiting message
  | .protocolError message => protocolError message
  | .fatal message => fatal message
  | .ingest row => ingest env row

def machine (env : Env) : Machine Board Happening Empty where
  init := {}
  next b e := (b.step env e, [])

end Board

end XmrigProxy.ShareBoard
