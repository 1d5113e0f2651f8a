import XmrigProxy.EventLines
import XmrigProxy.Library.JsonText
import XmrigProxy.Library.Numerals

/-! The dashboard checks every record of the event stream field by field. -/
namespace XmrigProxy

open LiveEventStream (columns)

namespace Dashboard

def HEADER_V2 : List Column :=
  [.schemaVersion, .eventSeq, .timeUtc, .event, .minerId,
   .mapperId, .minerIp, .listenPort, .worker, .agent,
   .sourceId, .templateId, .templateAgeMs, .refreshReason,
   .height, .prevHash, .seedHash, .algo, .jobId, .entropyHex,
   .minerTargetDiff, .networkTargetDiff, .shareId,
   .minerRequestId, .daemonRequestId, .nonce, .resultHash,
   .shareDiff, .status, .errorCode, .errorMessage, .latencyMs,
   .connectionMs, .rxBytes, .txBytes]

def HEADER_V3_EXTRA : List Column :=
  [.streamId, .previousSeedHash, .nextSeedHash, .hashingBlob,
   .blocktemplateBlob, .submittedBlockBlob, .minerTargetHex,
   .nonceOffset, .nonceSize, .reservedOffset, .reservedSize,
   .extraNonceOffset, .extraNonce, .signatureHex,
   .viewTag, .blockId, .minerTxHash, .verifierQueueMs,
   .verifierHashMs, .verifierTotalMs, .verifierPrepareMs,
   .verifierActive, .verifierQueued, .verifierQueueLimit,
   .verifierSeedCount, .verifierSeedCapacity, .verifierSeedRole,
   .verifierSeedStatus, .verifierVmPoolSize, .verifierStatsJson]

def HEADER_V3 : List Column := HEADER_V2 ++ HEADER_V3_EXTRA

def NUMERIC_FIELDS : List Column :=
  [.eventSeq, .minerId, .mapperId, .listenPort, .sourceId,
   .templateId, .templateAgeMs, .height, .minerTargetDiff,
   .networkTargetDiff, .shareId, .minerRequestId,
   .daemonRequestId, .shareDiff, .errorCode, .latencyMs,
   .connectionMs, .rxBytes, .txBytes,
   .nonceOffset, .nonceSize, .reservedOffset, .reservedSize,
   .extraNonceOffset, .extraNonce, .viewTag,
   .verifierActive, .verifierQueued, .verifierQueueLimit,
   .verifierSeedCount, .verifierSeedCapacity, .verifierVmPoolSize]

def FLOAT_FIELDS : List Column :=
  [.verifierQueueMs, .verifierHashMs, .verifierTotalMs, .verifierPrepareMs]

def diffFields : List Column := [.minerTargetDiff, .networkTargetDiff, .shareDiff]

def hashFields : List Column :=
  [.prevHash, .seedHash, .previousSeedHash, .nextSeedHash, .resultHash, .blockId, .minerTxHash]

def blobFields : List Column :=
  [.hashingBlob, .blocktemplateBlob, .submittedBlockBlob, .minerTargetHex, .signatureHex]

def UINT64_MAX : ℤ := 2 ^ 64 - 1

/-- The limit of the `csv` module on the characters of a field. -/
def fieldSizeLimit : ℕ := 131072

inductive Schema where
  | v2
  | v3
  deriving DecidableEq, Repr

namespace Schema

def version : Schema → List Char
  | .v2 => ['2']
  | .v3 => ['3']

def header : Schema → List Column
  | .v2 => HEADER_V2
  | .v3 => HEADER_V3

def names (s : Schema) : List (List Char) := s.header.map fun c => c.name.toList

end Schema

def SUPPORTED_HEADERS (names : List (List Char)) : Option Schema :=
  [Schema.v2, Schema.v3].find? fun s => s.names = names

/-- A row has a value for every column; those that a header leaves out are empty. -/
abbrev ParsedRow := Column → List Char

def emptyRow : ParsedRow := fun _ => []

/-- The values of the columns of a header. -/
def rowOf (header : List Column) (values : List (List Char)) : ParsedRow := fun c =>
  ((header.zip values).lookup c).getD (emptyRow c)

/-- What differs between interpreters: the characters of numbers, and how deeply the values of a
JSON text may be nested when it is decoded. -/
structure Python where
  alphabet : Numerals.Alphabet
  frames : ℕ

namespace Python

def limits (python : Python) : JsonText.Limits := ⟨Numerals.maxDigits, python.frames⟩

/-- `int` with base 10. -/
def int (python : Python) (value : List Char) : Option ℤ := Numerals.readInt python.alphabet value

def float (python : Python) (value : List Char) : Option Numerals.Real :=
  Numerals.readReal python.alphabet value

end Python

inductive Problem where
  | encoding
  | csv (failure : Csv.Failure)
  | header (received : ℕ)
  | columnCount (expected received : ℕ)
  | schemaVersion (declared : List Char)
  | required
  | notInteger (field : Column) (value : List Char)
  | notNumeric (field : Column) (value : List Char)
  | notFinite (field : Column)
  | sequenceNotPositive
  | negativeDiff
  | exceedsUint64 (field : Column)
  | streamId
  | notHash (field : Column)
  | notHex (field : Column)
  | invalidJson
  | notObject
  deriving DecidableEq

structure ProtocolError where
  line : ℕ
  problem : Problem
  deriving DecidableEq

/-- The exceptions of the parser. `unexpected` is that of a decoder of JSON that breaks down, which
is no `JSONDecodeError`. -/
inductive Raised where
  | protocolError (e : ProtocolError)
  | unexpected
  deriving DecidableEq

def isLowerHex (value : List Char) : Bool :=
  value = value.map Char.toLower && value.all fun c => c ∈ "0123456789abcdef".toList

def isStreamIdText (value : List Char) : Bool := value.length = 32 && isLowerHex value

def isHash (value : List Char) : Bool := value.length = 64 && isLowerHex value

def isHex (value : List Char) : Bool := value.length % 2 = 0 && isLowerHex value

section Checks

variable (python : Python) (row : ParsedRow)

def integerProblem (c : Column) : Option Problem :=
  if row c ≠ [] ∧ (python.int (row c)).isNone then some (.notInteger c (row c)) else none

def floatProblem (c : Column) : Option Problem :=
  if row c = [] then none
  else match python.float (row c) with
    | none => some (.notNumeric c (row c))
    | some converted =>
        if !converted.isFinite || converted.isNegative then some (.notFinite c) else none

/-- The integers were checked before. -/
def intOf (c : Column) : ℤ := (python.int (row c)).getD 0

def diffProblem (c : Column) : Option Problem :=
  if row c ≠ [] ∧ ¬ (0 ≤ intOf python row c ∧ intOf python row c ≤ UINT64_MAX) then
    some (.exceedsUint64 c)
  else none

def hashProblem (c : Column) : Option Problem :=
  if row c ≠ [] ∧ ¬ isHash (row c) then some (.notHash c) else none

def blobProblem (c : Column) : Option Problem :=
  if row c ≠ [] ∧ ¬ isHex (row c) then some (.notHex c) else none

/-- A text whose decoder breaks down is not among the problems. -/
def statsProblem : Option Problem :=
  if row .verifierStatsJson = [] then none
  else match JsonText.loads python.limits (row .verifierStatsJson) with
    | .error .breakdown => none
    | .error .invalid => some .invalidJson
    | .ok () => if JsonText.isObject (row .verifierStatsJson) then none else some .notObject

def statsBreakdown : Bool :=
  row .verifierStatsJson ≠ [] &&
    JsonText.loads python.limits (row .verifierStatsJson) = .error .breakdown

/-- The checks of a row, in their order. The source goes through its two sets of field names in no
particular order. -/
def problems (schema : Schema) : List (Option Problem) :=
  [if row .schemaVersion ≠ schema.version then some (.schemaVersion (row .schemaVersion)) else none,
   if row .eventSeq = [] ∨ row .timeUtc = [] ∨ row .event = [] then some .required else none,
   NUMERIC_FIELDS.findSome? (integerProblem python row),
   FLOAT_FIELDS.findSome? (floatProblem python row),
   if intOf python row .eventSeq ≤ 0 then some .sequenceNotPositive else none,
   if row .shareDiff ≠ [] ∧ intOf python row .shareDiff < 0 then some .negativeDiff else none,
   diffFields.findSome? (diffProblem python row),
   if schema = .v3 ∧ ¬ isStreamIdText (row .streamId) then some .streamId else none,
   hashFields.findSome? (hashProblem row),
   blobFields.findSome? (blobProblem row),
   statsProblem python row]

def firstProblem (schema : Schema) : Option Problem := (problems python row schema).findSome? id

end Checks

/-- `schema` is that of the header, once one was seen. -/
structure RowParser where
  schema : Option Schema := none
  lineNumber : ℕ := 0
  deriving DecidableEq

namespace RowParser

/-- A record that repeats the header is no row. -/
def parse (python : Python) (raw : List UInt8) (p : RowParser) :
    RowParser × Except Raised (Option ParsedRow) :=
  let p := { p with lineNumber := p.lineNumber + 1 }
  let raised := fun problem => (p, Except.error (.protocolError ⟨p.lineNumber, problem⟩))
  match decodeUtf8 raw with
  | none => raised .encoding
  | some text => match Csv.readLine csvChars fieldSizeLimit text with
    | .error failure => raised (.csv failure)
    | .ok values => match p.schema with
      | none => match SUPPORTED_HEADERS values with
        | none => raised (.header values.length)
        | some schema => ({ p with schema := some schema }, .ok none)
      | some schema =>
          let row := rowOf schema.header values
          if values = schema.names then (p, .ok none)
          else if values.length ≠ schema.header.length then
            raised (.columnCount schema.header.length values.length)
          else match firstProblem python row schema with
            | some problem => raised problem
            | none => (p, if statsBreakdown python row then .error .unexpected else .ok (some row))

end RowParser

end Dashboard

end XmrigProxy
