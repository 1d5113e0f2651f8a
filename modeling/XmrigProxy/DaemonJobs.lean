import Mathlib.Data.Option.Basic
import XmrigProxy.BlockTemplate
import XmrigProxy.DaemonClient
import XmrigProxy.DaemonTemplateSource
import XmrigProxy.JobTarget

/-! The way from a block template to a job and back to a block. A client derives a job of its own
from the template of the daemon by the bytes it reserves, keeps what a later submission needs, and
writes the nonce that a miner found into the template it kept. Blobs are hexadecimal text. -/
namespace XmrigProxy

namespace Algorithm

def CN_R : Algorithm := 0x63150272
def RX_WOW : Algorithm := 0x72141177
def RX_ARQ : Algorithm := 0x72121061
def RX_GRAFT : Algorithm := 0x72151267
def KAWPOW_RVN : Algorithm := 0x6b0f0000

end Algorithm

def Coin.algorithm : Coin → Algorithm
  | .INVALID => Algorithm.INVALID
  | .MONERO => Algorithm.RX_0
  | .SUMO => Algorithm.CN_R
  | .ARQMA => Algorithm.RX_ARQ
  | .GRAFT => Algorithm.RX_GRAFT
  | .RAVEN => Algorithm.KAWPOW_RVN
  | .WOWNERO => Algorithm.RX_WOW
  | .ZEPHYR => Algorithm.RX_0
  | .TOWNFORGE => Algorithm.RX_0
  | .YADA => Algorithm.RX_YADA

def toHex (bytes : Buffer) : String := String.ofList (Hex.encode bytes)

/-- `memcpy` into a text, which has to hold what is copied. -/
def writeText (text : String) (position : ℕ) (cs : List Char) : Option String :=
  if position + cs.length ≤ text.toList.length then
    some (String.ofList (Hex.patch text.toList position cs))
  else none

namespace BlockTemplate

/-- A template that comes as text, with its bytes. A parse without a result is left out. -/
def parseText (coin : Coin) (keccak : Buffer → Hash) (fuel : ℕ) (text : String) :
    Option (Buffer × BlockTemplate) :=
  if text.toList.length < kMinSize * 2 then none
  else (Hex.decode text.toList).bind fun data =>
    match (parse coin keccak data fuel true).outcome with
    | .ok t => some (data, t)
    | .error _ => none

end BlockTemplate

/-- The part of the miner transaction that a job patches, and the way from it to the root. -/
structure MinerTx where
  minerTxPrefix : Buffer
  ephPubKeyOffset : ℕ
  pubKeyOffset : ℕ
  extraNonceOffset : ℕ
  extraNonceSize : ℕ
  merkleTreeBranch : List Hash
  merkleTreePath : ℕ
  deriving DecidableEq

namespace Job

def kMaxBlobSize : ℕ := 408
def kMaxSeedSize : ℕ := 32

def nonceSize (job : Job) : ℕ := nonceSizeOf job.algorithm

def setBlob (text : String) (job : Job) : Option Job :=
  let size := text.toList.length
  if size % 2 ≠ 0 then none
  else if size / 2 < job.nonceOffset + job.nonceSize ∨ kMaxBlobSize ≤ size / 2 then none
  else (Hex.decode text.toList).map fun blob =>
    { job with
      blob
      rawBlob := text }

def setExtraNonceInMinerTx (extraNonce : ℕ) (tx : MinerTx) : Option MinerTx :=
  let bytes := (littleEndianBytes 4 extraNonce).take tx.extraNonceSize
  if tx.extraNonceOffset + bytes.length ≤ tx.minerTxPrefix.length then
    some { tx with minerTxPrefix := Hex.patch tx.minerTxPrefix tx.extraNonceOffset bytes }
  else none

/-- Where a job takes the root to stand in its blob. -/
def rootHashOffset (job : Job) : ℕ :=
  job.nonceOffset + job.nonceSize +
    if job.hasMinerSignature then BlockTemplate.kSignatureSize + 2 else 0

def generateHashingBlob (keccak : Buffer → Hash) (job : Job) (tx : MinerTx) : Option String :=
  let rootHash := BlockTemplate.calculateRootHash keccak tx.minerTxPrefix tx.merkleTreeBranch
    tx.merkleTreePath
  writeText job.rawBlob (rootHashOffset job * 2) (Hex.encode rootHash.bytes)

end Job

namespace DaemonClient

open BlockTemplate (parseText slice)
open DaemonTemplateSource (Snapshot)

def kEntropySize : ℕ := 16

/-- What a client is configured with, and whether its spend key is usable. -/
structure Settings where
  id : ℕ := 0
  coin : Coin
  algorithm : Algorithm := Algorithm.INVALID
  keccak : Buffer → Hash
  fuel : ℕ
  sourceId : ℕ := 0
  spendKey : Bool := false

structure Issued where
  job : Job
  minerTx : MinerTx
  context : JobContext
  deriving DecidableEq

variable (c : Settings)

/-- Offsets inside the miner transaction are differences of `size_t`. -/
def minerTxOf (data : Buffer) (t : BlockTemplate) : MinerTx where
  minerTxPrefix := slice data t.minerTxPrefixOffset
    (t.minerTxPrefixEndOffset - t.minerTxPrefixOffset)
  ephPubKeyOffset := (t.ephPublicKeyOffset + 2 ^ 64 - t.minerTxPrefixOffset) % 2 ^ 64
  pubKeyOffset := (t.txPubkeyOffset + 2 ^ 64 - t.minerTxPrefixOffset) % 2 ^ 64
  extraNonceOffset := (t.txExtraNonceOffset + 2 ^ 64 - t.minerTxPrefixOffset) % 2 ^ 64
  extraNonceSize := t.txExtraNonce.size
  merkleTreeBranch := t.merkle.branch
  merkleTreePath := t.merkle.path

/-- The job before its blob is set. -/
def newJob (t : BlockTemplate) : Job where
  algorithm := if c.coin = .INVALID then c.algorithm else c.coin.algorithm
  clientId := toString c.id
  id := ""
  diff := 0
  height := 0
  rawBlob := ""
  hasMinerSignature := t.hasMinerSignature
  hasViewTag := t.outputType = 3

def finishJob (snapshot : Snapshot) (entropy : Buffer) (jobId : String) (job : Job) : Job :=
  { job with
    id := jobId
    diff := snapshot.difficulty
    height := snapshot.height
    rawSeedHash := snapshot.seedHash
    templateEntropy := toHex entropy
    templateGeneration := snapshot.generation
    templateSourceId := c.sourceId }

def newContext (snapshot : Snapshot) (entropy : Buffer) (now : ℕ) (blocktemplate : String)
    (t : BlockTemplate) (job : Job) : JobContext where
  blocktemplate
  entropy := toHex entropy
  jobId := job.id
  hasMinerSignature := t.hasMinerSignature
  hasViewTag := t.outputType = 3
  ephPublicKeyOffset := t.ephPublicKeyOffset
  extraNonceOffset := t.txExtraNonceOffset
  nonceOffset := job.nonceOffset
  signatureOffset := job.nonceOffset + job.nonceSize
  txPublicKeyOffset := t.txPubkeyOffset
  createdSteadyMs := now
  difficulty := snapshot.difficulty
  generation := snapshot.generation
  height := snapshot.height
  sourceId := c.sourceId

/-- A private job from the template of the daemon. `entropy` and `ids` are what the generator of
random bytes gives. -/
def installTemplate (entropy : Buffer) (ids : List String) (now : ℕ) (contexts : List JobContext)
    (snapshot : Snapshot) : Option Issued := do
  guard (snapshot.reserveSize = kEntropySize ∧ snapshot.blocktemplateBlob ≠ "")
  let (blob, original) ← parseText c.coin c.keccak c.fuel snapshot.blocktemplateBlob
  guard (c.coin = .MONERO →
    toHex (original.generateHashingBlob blob) = snapshot.blockhashingBlob)
  guard (original.txExtraNonce.size = kEntropySize ∧
    snapshot.reservedOffset = original.txExtraNonceOffset ∧
    original.txExtraNonceOffset + kEntropySize ≤ blob.length)
  guard (entropy.length = kEntropySize)
  let blocktemplate ← writeText snapshot.blocktemplateBlob (original.txExtraNonceOffset * 2)
    (Hex.encode entropy)
  let (data, mutated) ← parseText c.coin c.keccak c.fuel blocktemplate
  guard (mutated.txExtraNonce.size = kEntropySize ∧
    mutated.txExtraNonceOffset = original.txExtraNonceOffset)
  guard (mutated.hasMinerSignature → c.spendKey)
  let job ← (newJob c mutated).setBlob (toHex (mutated.generateHashingBlob data))
  guard (snapshot.seedHash.toList.length = Job.kMaxSeedSize * 2 ∧
    (Hex.decode snapshot.seedHash.toList).isSome)
  let jobId ← (ids.take 4).find? fun id => (findContext id contexts).isNone
  let job := finishJob c snapshot entropy jobId job
  pure
    { job
      minerTx := minerTxOf data mutated
      context := newContext c snapshot entropy now blocktemplate mutated job }

/-- The keys and the signature that a miner sent for its block. -/
def writeSignature (context : JobContext) (result : JobResult) (blocktemplate : String) :
    Option String :=
  if context.hasMinerSignature then do
    let sig ← result.sig
    let sigData ← result.sigData
    guard (sig.toList.length = BlockTemplate.kSignatureSize * 2 ∧
      BlockTemplate.kKeySize * 4 ≤ sigData.toList.length)
    let blocktemplate ← writeText blocktemplate (context.signatureOffset * 2) sig.toList
    let blocktemplate ← writeText blocktemplate (context.txPublicKeyOffset * 2)
      (sigData.toList.take (BlockTemplate.kKeySize * 2))
    let blocktemplate ← writeText blocktemplate (context.ephPublicKeyOffset * 2)
      ((sigData.toList.drop (BlockTemplate.kKeySize * 2)).take (BlockTemplate.kKeySize * 2))
    if context.hasViewTag then
      writeText blocktemplate (context.ephPublicKeyOffset * 2 + BlockTemplate.kKeySize * 2)
        (Hex.encode [UInt8.ofNat result.viewTag])
    else pure blocktemplate
  else pure blocktemplate

def writeExtraNonce (context : JobContext) (extraNonce : ℤ) (blocktemplate : String) :
    Option String :=
  if 0 ≤ extraNonce then
    writeText blocktemplate (context.extraNonceOffset * 2)
      (Hex.encode (littleEndianBytes 4 extraNonce.toNat))
  else pure blocktemplate

/-- The block that a result completes, as `submit` hands it to the daemon. -/
def finalizedBlob (contexts : List JobContext) (result : JobResult) : Option String := do
  let jobId ← result.jobId
  let context ← findContext jobId contexts
  let nonce ← result.nonce
  guard (nonce.toList.length = 8)
  let blocktemplate ← writeText context.blocktemplate (context.nonceOffset * 2) nonce.toList
  let blocktemplate ← writeSignature context result blocktemplate
  let blocktemplate ← writeExtraNonce context result.extraNonce blocktemplate
  let _ ← parseText c.coin c.keccak c.fuel blocktemplate
  pure blocktemplate

section Texts

open BlockTemplate (parse kMinSize)

variable {text out : String} {cs : List Char} {data ys : Buffer} {position : ℕ}

theorem decode_toHex (bytes : Buffer) : Hex.decode (toHex bytes).toList = some bytes := by
  unfold toHex
  rw [String.toList_ofList, Hex.decode_encode]

theorem toHex_injective {xs ys : Buffer} (h : toHex xs = toHex ys) : xs = ys := by
  have hdecode := decode_toHex xs
  rw [h, decode_toHex] at hdecode
  exact (Option.some.inj hdecode).symm

theorem length_toHex (bytes : Buffer) : (toHex bytes).toList.length = 2 * bytes.length := by
  unfold toHex
  rw [String.toList_ofList, Hex.length_encode]

theorem writeText_eq_some : writeText text position cs = some out ↔
    position + cs.length ≤ text.toList.length ∧
      String.ofList (Hex.patch text.toList position cs) = out := by
  unfold writeText
  constructor
  · intro h
    split at h
    · next hfit => exact ⟨hfit, Option.some.inj h⟩
    · cases h
  · rintro ⟨hfit, rfl⟩
    rw [if_pos hfit]

/-- Digits written over digits are bytes written over bytes. -/
theorem decode_writeText (htext : Hex.decode text.toList = some data)
    (hcs : Hex.decode cs = some ys) (h : writeText text (position * 2) cs = some out) :
    Hex.decode out.toList = some (Hex.patch data position ys) ∧
      position + ys.length ≤ data.length := by
  obtain ⟨hfit, rfl⟩ := writeText_eq_some.mp h
  have hlength := Hex.decode_length htext
  have hwritten := Hex.decode_length hcs
  refine ⟨?_, by omega⟩
  rw [String.toList_ofList, Nat.mul_comm]
  exact Hex.decode_patch htext hcs position

theorem exists_writeText (htext : Hex.decode text.toList = some data)
    (hcs : Hex.decode cs = some ys) (hfit : position + ys.length ≤ data.length) :
    ∃ out, writeText text (position * 2) cs = some out := by
  have hlength := Hex.decode_length htext
  have hwritten := Hex.decode_length hcs
  exact ⟨_, writeText_eq_some.mpr ⟨by omega, rfl⟩⟩

theorem parseText_eq_some {coin : Coin} {keccak : Buffer → Hash} {fuel : ℕ} {t : BlockTemplate} :
    parseText coin keccak fuel text = some (data, t) ↔
      Hex.decode text.toList = some data ∧ (parse coin keccak data fuel true).outcome = .ok t := by
  unfold BlockTemplate.parseText
  constructor
  · intro h
    split at h
    · cases h
    · obtain ⟨data', hdata, hparse⟩ := Option.bind_eq_some_iff.mp h
      cases ht : (parse coin keccak data' fuel true).outcome with
      | error e =>
          rw [ht] at hparse
          cases hparse
      | ok t' =>
          rw [ht] at hparse
          cases hparse
          exact ⟨hdata, ht⟩
  · rintro ⟨hdata, ht⟩
    have hmin : ¬ data.length < kMinSize := by
      intro hmin
      unfold parse at ht
      rw [if_pos hmin] at ht
      cases ht
    have hlength := Hex.decode_length hdata
    rw [if_neg (by omega), hdata, Option.bind_some, ht]

end Texts

section Issue

open BlockTemplate (parse)

variable {c} {entropy : Buffer} {ids : List String} {now : ℕ} {contexts : List JobContext}
  {snapshot : Snapshot} {issued : Issued}

/-- What a job was derived from, and what is kept of it. -/
structure Derived (c : Settings) (entropy : Buffer) (snapshot : Snapshot) (issued : Issued)
    (blob : Buffer) (original : BlockTemplate) (data : Buffer) (mutated : BlockTemplate) :
    Prop where
  template : Hex.decode snapshot.blocktemplateBlob.toList = some blob
  parsed : (parse c.coin c.keccak blob c.fuel true).outcome = .ok original
  reserved : original.txExtraNonce.size = kEntropySize
  entropy_length : entropy.length = kEntropySize
  fits : original.txExtraNonceOffset + entropy.length ≤ blob.length
  data_eq : data = Hex.patch blob original.txExtraNonceOffset entropy
  derived : (parse c.coin c.keccak data c.fuel true).outcome = .ok mutated
  size_eq : mutated.txExtraNonce.size = kEntropySize
  offset_eq : mutated.txExtraNonceOffset = original.txExtraNonceOffset
  kept : Hex.decode issued.context.blocktemplate.toList = some data
  minerTx : issued.minerTx = minerTxOf data mutated
  algorithm : issued.job.algorithm = (newJob c mutated).algorithm
  rawBlob : issued.job.rawBlob = toHex (mutated.generateHashingBlob data)
  blob_eq : issued.job.blob = mutated.generateHashingBlob data
  room : issued.job.nonceOffset + issued.job.nonceSize ≤ issued.job.blob.length
  id_eq : issued.context.jobId = issued.job.id
  nonceOffset : issued.context.nonceOffset = issued.job.nonceOffset
  extraNonceOffset : issued.context.extraNonceOffset = original.txExtraNonceOffset
  signed : issued.context.hasMinerSignature = mutated.hasMinerSignature
  signed_job : issued.job.hasMinerSignature = mutated.hasMinerSignature

theorem setBlob_eq_some {text : String} {job job' : Job} (h : job.setBlob text = some job') :
    ∃ blob, Hex.decode text.toList = some blob ∧
      job.nonceOffset + job.nonceSize ≤ blob.length ∧
      job' = { job with
        blob
        rawBlob := text } := by
  unfold Job.setBlob at h
  dsimp only at h
  split at h
  · cases h
  · split at h
    · cases h
    · next hsize =>
      obtain ⟨blob, hblob, rfl⟩ := Option.map_eq_some_iff.mp h
      have hlength := Hex.decode_length hblob
      exact ⟨blob, hblob, by omega, rfl⟩

theorem derived_of_installTemplate
    (h : installTemplate c entropy ids now contexts snapshot = some issued) :
    ∃ blob original data mutated, Derived c entropy snapshot issued blob original data mutated := by
  unfold installTemplate at h
  simp only [Option.bind_eq_bind, Option.bind_eq_some_iff, Option.guard_eq_some',
    exists_const, Prod.exists, Option.pure_def, Option.some.injEq] at h
  obtain ⟨-, blob, original, hparse, -, ⟨hreserved, -, hfits⟩, hentropy,
      blocktemplate, hwrite, data, mutated, hmutated, ⟨hsize, hoffset⟩, -, job,
      hjob, -, jobId, -, rfl⟩ := h
  obtain ⟨htemplate, hparsed⟩ := parseText_eq_some.mp hparse
  obtain ⟨hkept, hderived⟩ := parseText_eq_some.mp hmutated
  obtain ⟨hpatched, -⟩ := decode_writeText htemplate (Hex.decode_encode entropy) hwrite
  obtain ⟨bytes, hbytes, hroom, rfl⟩ := setBlob_eq_some hjob
  obtain rfl := Option.some.inj (hbytes.symm.trans (decode_toHex _))
  exact ⟨blob, original, data, mutated,
    { template := htemplate
      parsed := hparsed
      reserved := hreserved
      entropy_length := hentropy
      fits := by rwa [hentropy]
      data_eq := Option.some.inj (hkept.symm.trans hpatched)
      derived := hderived
      size_eq := hsize
      offset_eq := hoffset
      kept := hkept
      minerTx := rfl
      algorithm := rfl
      rawBlob := rfl
      blob_eq := rfl
      room := hroom
      id_eq := rfl
      nonceOffset := rfl
      extraNonceOffset := hoffset
      signed := rfl
      signed_job := rfl }⟩

theorem exists_setBlob {job : Job} {blob : Buffer}
    (hroom : job.nonceOffset + job.nonceSize ≤ blob.length)
    (hmax : blob.length < Job.kMaxBlobSize) : ∃ job', job.setBlob (toHex blob) = some job' := by
  unfold Job.setBlob
  dsimp only
  rw [length_toHex, if_neg (by omega), if_neg (by omega), decode_toHex]
  exact ⟨_, rfl⟩

/-- A job is issued for a template of a daemon that describes it well. -/
theorem exists_issued {blob : Buffer} {original mutated : BlockTemplate} {seed : Buffer}
    {jobId : String} (hcoin : c.coin ≠ .MONERO) (hreserve : snapshot.reserveSize = kEntropySize)
    (htext : snapshot.blocktemplateBlob = toHex blob)
    (hparsed : (parse c.coin c.keccak blob c.fuel true).outcome = .ok original)
    (hreserved : original.txExtraNonce.size = kEntropySize ∧
      snapshot.reservedOffset = original.txExtraNonceOffset ∧
      original.txExtraNonceOffset + kEntropySize ≤ blob.length)
    (hentropy : entropy.length = kEntropySize)
    (hderived : (parse c.coin c.keccak (Hex.patch blob original.txExtraNonceOffset entropy) c.fuel
      true).outcome = .ok mutated)
    (hmutated : mutated.txExtraNonce.size = kEntropySize ∧
      mutated.txExtraNonceOffset = original.txExtraNonceOffset)
    (hunsigned : mutated.hasMinerSignature = false)
    (hroom : (newJob c mutated).nonceOffset + (newJob c mutated).nonceSize ≤
      (mutated.generateHashingBlob (Hex.patch blob original.txExtraNonceOffset entropy)).length)
    (hmax : (mutated.generateHashingBlob (Hex.patch blob original.txExtraNonceOffset
      entropy)).length < Job.kMaxBlobSize)
    (hseed : snapshot.seedHash = toHex seed ∧ seed.length = Job.kMaxSeedSize)
    (hid : ((ids.take 4).find? fun id => (findContext id contexts).isNone) = some jobId) :
    ∃ issued, installTemplate c entropy ids now contexts snapshot = some issued := by
  have hdecoded : Hex.decode snapshot.blocktemplateBlob.toList = some blob := by
    rw [htext, decode_toHex]
  have hmin : snapshot.blocktemplateBlob ≠ "" := by
    intro hempty
    rw [hempty] at hdecoded
    obtain rfl : [] = blob := Option.some.inj hdecoded
    obtain ⟨-, -, hfits⟩ := hreserved
    exact absurd hfits (by simp [kEntropySize])
  obtain ⟨out, hwrite⟩ := exists_writeText hdecoded (Hex.decode_encode entropy)
    (hreserved.2.2.trans_eq' (by rw [hentropy]))
  obtain ⟨hout, -⟩ := decode_writeText hdecoded (Hex.decode_encode entropy) hwrite
  obtain ⟨job, hjob⟩ := exists_setBlob hroom hmax
  unfold installTemplate
  simp only [Option.bind_eq_bind, Option.bind_eq_some_iff, Option.guard_eq_some', exists_const,
    Prod.exists, Option.pure_def, Option.some.injEq]
  refine ⟨_, ⟨hreserve, hmin⟩, blob, original, parseText_eq_some.mpr ⟨hdecoded, hparsed⟩,
    fun hmonero => absurd hmonero hcoin, hreserved, hentropy, out, hwrite, _, mutated,
    parseText_eq_some.mpr ⟨hout, hderived⟩, hmutated, ?_, job, hjob, ?_, jobId, hid, rfl⟩
  · rw [hunsigned]
    exact fun h => (nomatch h)
  · rw [hseed.1, length_toHex, decode_toHex, hseed.2]
    exact ⟨rfl, rfl⟩

end Issue

end DaemonClient

end XmrigProxy
