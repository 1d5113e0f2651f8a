import XmrigProxy.Library.Csv
import XmrigProxy.Library.Numerals
import Mathlib.Logic.Function.Basic

/-! The rows of the event stream, and the order in which they are broadcast. -/
namespace XmrigProxy

/-- Bytes, which need not be UTF-8. -/
abbrev Text := List UInt8

/-- The columns of schema version 3, in the order of the header. -/
inductive Column where
  | schemaVersion | eventSeq | timeUtc | event | minerId | mapperId | minerIp | listenPort
  | worker | agent | sourceId | templateId | templateAgeMs | refreshReason | height | prevHash
  | seedHash | algo | jobId | entropyHex | minerTargetDiff | networkTargetDiff | shareId
  | minerRequestId | daemonRequestId | nonce | resultHash | shareDiff | status | errorCode
  | errorMessage | latencyMs | connectionMs | rxBytes | txBytes | streamId | previousSeedHash
  | nextSeedHash | hashingBlob | blocktemplateBlob | submittedBlockBlob | minerTargetHex
  | nonceOffset | nonceSize | reservedOffset | reservedSize | extraNonceOffset | extraNonce
  | signatureHex | viewTag | blockId | minerTxHash | verifierQueueMs | verifierHashMs
  | verifierTotalMs | verifierPrepareMs | verifierActive | verifierQueued | verifierQueueLimit
  | verifierSeedCount | verifierSeedCapacity | verifierSeedRole | verifierSeedStatus
  | verifierVmPoolSize | verifierStatsJson
  deriving DecidableEq, Repr

def Column.name : Column → String
  | .schemaVersion => "schema_version"
  | .eventSeq => "event_seq"
  | .timeUtc => "time_utc"
  | .event => "event"
  | .minerId => "miner_id"
  | .mapperId => "mapper_id"
  | .minerIp => "miner_ip"
  | .listenPort => "listen_port"
  | .worker => "worker"
  | .agent => "agent"
  | .sourceId => "source_id"
  | .templateId => "template_id"
  | .templateAgeMs => "template_age_ms"
  | .refreshReason => "refresh_reason"
  | .height => "height"
  | .prevHash => "prev_hash"
  | .seedHash => "seed_hash"
  | .algo => "algo"
  | .jobId => "job_id"
  | .entropyHex => "entropy_hex"
  | .minerTargetDiff => "miner_target_diff"
  | .networkTargetDiff => "network_target_diff"
  | .shareId => "share_id"
  | .minerRequestId => "miner_request_id"
  | .daemonRequestId => "daemon_request_id"
  | .nonce => "nonce"
  | .resultHash => "result_hash"
  | .shareDiff => "share_diff"
  | .status => "status"
  | .errorCode => "error_code"
  | .errorMessage => "error_message"
  | .latencyMs => "latency_ms"
  | .connectionMs => "connection_ms"
  | .rxBytes => "rx_bytes"
  | .txBytes => "tx_bytes"
  | .streamId => "stream_id"
  | .previousSeedHash => "previous_seed_hash"
  | .nextSeedHash => "next_seed_hash"
  | .hashingBlob => "hashing_blob"
  | .blocktemplateBlob => "blocktemplate_blob"
  | .submittedBlockBlob => "submitted_block_blob"
  | .minerTargetHex => "miner_target_hex"
  | .nonceOffset => "nonce_offset"
  | .nonceSize => "nonce_size"
  | .reservedOffset => "reserved_offset"
  | .reservedSize => "reserved_size"
  | .extraNonceOffset => "extra_nonce_offset"
  | .extraNonce => "extra_nonce"
  | .signatureHex => "signature_hex"
  | .viewTag => "view_tag"
  | .blockId => "block_id"
  | .minerTxHash => "miner_tx_hash"
  | .verifierQueueMs => "verifier_queue_ms"
  | .verifierHashMs => "verifier_hash_ms"
  | .verifierTotalMs => "verifier_total_ms"
  | .verifierPrepareMs => "verifier_prepare_ms"
  | .verifierActive => "verifier_active"
  | .verifierQueued => "verifier_queued"
  | .verifierQueueLimit => "verifier_queue_limit"
  | .verifierSeedCount => "verifier_seed_count"
  | .verifierSeedCapacity => "verifier_seed_capacity"
  | .verifierSeedRole => "verifier_seed_role"
  | .verifierSeedStatus => "verifier_seed_status"
  | .verifierVmPoolSize => "verifier_vm_pool_size"
  | .verifierStatsJson => "verifier_stats_json"

namespace LiveEventStream

structure Row where
  event : Text := []
  minerId : Option Int64 := none
  mapperId : Option Int64 := none
  minerIp : Text := []
  listenPort : Option UInt64 := none
  worker : Text := []
  agent : Text := []
  sourceId : Option UInt64 := none
  templateId : Text := []
  templateAgeMs : Option UInt64 := none
  refreshReason : Text := []
  height : Option UInt64 := none
  prevHash : Text := []
  seedHash : Text := []
  algorithm : Text := []
  jobId : Text := []
  entropyHex : Text := []
  minerTargetDiff : Option UInt64 := none
  networkTargetDiff : Option UInt64 := none
  shareId : Option UInt64 := none
  minerRequestId : Option Int64 := none
  daemonRequestId : Option Int64 := none
  nonce : Text := []
  resultHash : Text := []
  shareDiff : Option UInt64 := none
  status : Text := []
  errorCode : Option Int64 := none
  errorMessage : Text := []
  latencyMs : Option UInt64 := none
  connectionMs : Option UInt64 := none
  rxBytes : Option UInt64 := none
  txBytes : Option UInt64 := none
  previousSeedHash : Text := []
  nextSeedHash : Text := []
  hashingBlob : Text := []
  blocktemplateBlob : Text := []
  submittedBlockBlob : Text := []
  minerTargetHex : Text := []
  nonceOffset : Option UInt64 := none
  nonceSize : Option UInt64 := none
  reservedOffset : Option UInt64 := none
  reservedSize : Option UInt64 := none
  extraNonceOffset : Option UInt64 := none
  extraNonce : Option Int64 := none
  signatureHex : Text := []
  viewTag : Option UInt64 := none
  blockId : Text := []
  minerTxHash : Text := []
  verifierQueueMs : Text := []
  verifierHashMs : Text := []
  verifierTotalMs : Text := []
  verifierPrepareMs : Text := []
  verifierActive : Option UInt64 := none
  verifierQueued : Option UInt64 := none
  verifierQueueLimit : Option UInt64 := none
  verifierSeedCount : Option UInt64 := none
  verifierSeedCapacity : Option UInt64 := none
  verifierSeedRole : Text := []
  verifierSeedStatus : Text := []
  verifierVmPoolSize : Option UInt64 := none
  verifierStatsJson : Text := []

def number (field : Option UInt64) : Text :=
  (field.map fun n => utf8 (Numerals.printInt n.toNat)).getD []

def signedNumber (field : Option Int64) : Text :=
  (field.map fun n => utf8 (Numerals.printInt n.toInt)).getD []

/-- `%02X` of a byte. -/
def upperHex (c : UInt8) : Text :=
  let digit := fun n : ℕ => UInt8.ofNat (if n < 10 then 48 + n else 55 + n)
  [digit (c.toNat / 16), digit (c.toNat % 16)]

def escape (c : UInt8) : Text :=
  if c = 0x0d then bytes "\\r"
  else if c = 0x0a then bytes "\\n"
  else if c = 0x09 then bytes "\\t"
  else if c < 0x20 ∨ c = 0x7f then bytes "\\x" ++ upperHex c
  else [c]

def sanitize (input : Text) : Text := input.flatMap escape

/-- The last position up to `last` where the input may be cut. -/
def cutPosition (input : Text) : (last : ℕ) → ℕ
  | 0 => 0
  | last + 1 =>
      if isContinuation (input.getD (last + 1) 0) then cutPosition input last else last + 1

def boundedText (input : Text) (maxBytes : ℕ) : Text :=
  if input.length ≤ maxBytes then input
  else input.take (cutPosition input maxBytes) ++ bytes "...[truncated]"

def appendCsvField (output input : Text) : Text :=
  (if output = [] then [] else output ++ [csvBytes.comma]) ++
    Csv.writeField csvBytes (sanitize input)

/-- What `gmtime` makes of the system clock. -/
structure Clock where
  year : ℕ
  month : ℕ
  day : ℕ
  hour : ℕ
  minute : ℕ
  second : ℕ
  millisecond : ℕ
  deriving DecidableEq, Repr

def padded (width n : ℕ) : Text :=
  utf8 (List.replicate (width - (Nat.toDigits 10 n).length) '0' ++ Nat.toDigits 10 n)

def utcNow (now : Clock) : Text :=
  padded 4 now.year ++ bytes "-" ++ padded 2 now.month ++ bytes "-" ++ padded 2 now.day ++
    bytes "T" ++ padded 2 now.hour ++ bytes ":" ++ padded 2 now.minute ++ bytes ":" ++
    padded 2 now.second ++ bytes "." ++ padded 3 now.millisecond ++ bytes "Z"

def csv (streamId : Text) (sequence : ℕ) (now : Clock) (row : Row) : Text :=
  (List.foldl appendCsvField []
  [bytes "3",
   utf8 (Numerals.printInt sequence),
   utcNow now,
   row.event,
   signedNumber row.minerId,
   signedNumber row.mapperId,
   row.minerIp,
   number row.listenPort,
   boundedText row.worker 256,
   boundedText row.agent 512,
   number row.sourceId,
   row.templateId,
   number row.templateAgeMs,
   row.refreshReason,
   number row.height,
   row.prevHash,
   row.seedHash,
   row.algorithm,
   boundedText row.jobId 256,
   row.entropyHex,
   number row.minerTargetDiff,
   number row.networkTargetDiff,
   number row.shareId,
   signedNumber row.minerRequestId,
   signedNumber row.daemonRequestId,
   row.nonce,
   row.resultHash,
   number row.shareDiff,
   row.status,
   signedNumber row.errorCode,
   boundedText row.errorMessage 2048,
   number row.latencyMs,
   number row.connectionMs,
   number row.rxBytes,
   number row.txBytes,
   streamId,
   row.previousSeedHash,
   row.nextSeedHash,
   row.hashingBlob,
   row.blocktemplateBlob,
   row.submittedBlockBlob,
   row.minerTargetHex,
   number row.nonceOffset,
   number row.nonceSize,
   number row.reservedOffset,
   number row.reservedSize,
   number row.extraNonceOffset,
   signedNumber row.extraNonce,
   boundedText row.signatureHex 256,
   number row.viewTag,
   row.blockId,
   row.minerTxHash,
   row.verifierQueueMs,
   row.verifierHashMs,
   row.verifierTotalMs,
   row.verifierPrepareMs,
   number row.verifierActive,
   number row.verifierQueued,
   number row.verifierQueueLimit,
   number row.verifierSeedCount,
   number row.verifierSeedCapacity,
   row.verifierSeedRole,
   row.verifierSeedStatus,
   number row.verifierVmPoolSize,
   row.verifierStatsJson]) ++ [csvBytes.lf]

def csvHeader : Text :=
  bytes "schema_version,event_seq,time_utc,event,miner_id,mapper_id,miner_ip,listen_port,worker,agent," ++
  bytes "source_id,template_id,template_age_ms,refresh_reason,height,prev_hash,seed_hash,algo,job_id,entropy_hex," ++
  bytes "miner_target_diff,network_target_diff,share_id,miner_request_id,daemon_request_id,nonce,result_hash," ++
  bytes "share_diff,status,error_code,error_message,latency_ms,connection_ms,rx_bytes,tx_bytes,stream_id," ++
  bytes "previous_seed_hash,next_seed_hash,hashing_blob,blocktemplate_blob,submitted_block_blob,miner_target_hex," ++
  bytes "nonce_offset,nonce_size,reserved_offset,reserved_size,extra_nonce_offset,extra_nonce,signature_hex," ++
  bytes "view_tag,block_id,miner_tx_hash,verifier_queue_ms,verifier_hash_ms,verifier_total_ms," ++
  bytes "verifier_prepare_ms,verifier_active,verifier_queued,verifier_queue_limit,verifier_seed_count," ++
  bytes "verifier_seed_capacity,verifier_seed_role,verifier_seed_status,verifier_vm_pool_size,verifier_stats_json\n"

/-- A row with its sequence number, at the time when it was written. -/
structure Emission where
  sequence : ℕ
  now : Clock
  row : Row

def Emission.line (streamId : Text) (e : Emission) : Text := csv streamId e.sequence e.now e.row

/-- The connection of the dashboard, from its header on. -/
structure Client where
  pendingBytes : ℕ := csvHeader.length
  closing : Bool := false
  written : List Emission := []

structure State where
  streamId : Text
  eventSequence : ℕ := 0
  preLoginJobs : Int64 → Option (List Row) := fun _ => none
  client : Option Client := none
  /-- All that was broadcast, also without a client; nothing reads it. -/
  broadcasts : List Emission := []

def maxPendingBytesPerClient : ℕ := 8 * 1024 * 1024

/-- A client that does not read fast enough is disconnected. -/
def write (streamId : Text) (e : Emission) (client : Client) : Client :=
  let size := (e.line streamId).length
  if client.closing then client
  else if maxPendingBytesPerClient < size ∨
    maxPendingBytesPerClient - size < client.pendingBytes then
    { client with closing := true }
  else
    { client with
      pendingBytes := client.pendingBytes + size
      written := client.written ++ [e] }

namespace State

/-- `now` is the time at which a row gets its sequence number. -/
def broadcast (now : ℕ → Clock) (row : Row) (s : State) : State :=
  if row.event = [] then s
  else
    let sequence := s.eventSequence + 1
    let emission : Emission := ⟨sequence, now sequence, row⟩
    { s with
      eventSequence := sequence
      client := s.client.map (write s.streamId emission)
      broadcasts := s.broadcasts ++ [emission] }

/-- The jobs of a miner wait for its login, and are dropped when the login fails. -/
def publishOrdered (now : ℕ → Clock) (row : Row) (s : State) : State :=
  match row.minerId with
  | none => s.broadcast now row
  | some minerId =>
      if row.event = bytes "worker_connected" then
        { s with preLoginJobs := Function.update s.preLoginJobs minerId (some []) }.broadcast
          now row
      else if row.event = bytes "job_sent" ∧ (s.preLoginJobs minerId).isSome then
        { s with
          preLoginJobs := Function.update s.preLoginJobs minerId
            ((s.preLoginJobs minerId).map (· ++ [row])) }
      else if row.event = bytes "worker_login" then
        let s := s.broadcast now row
        let jobs := if row.status = bytes "accepted" then (s.preLoginJobs minerId).getD [] else []
        jobs.foldl (fun s job => s.broadcast now job)
          { s with preLoginJobs := Function.update s.preLoginJobs minerId none }
      else if row.event = bytes "worker_disconnected" then
        { s with preLoginJobs := Function.update s.preLoginJobs minerId none }.broadcast now row
      else s.broadcast now row

end State

end LiveEventStream

end XmrigProxy
