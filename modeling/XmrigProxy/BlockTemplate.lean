import XmrigProxy.Library.Traced
import XmrigProxy.MerkleRoot

/-! Parsing a CryptoNote block template. The reader checks every length against the end of the
blob, by a sum that wraps where `word` does; an exception ends the parse with `false`. -/
namespace XmrigProxy

inductive Coin where
  | INVALID
  | MONERO
  | SUMO
  | ARQMA
  | GRAFT
  | RAVEN
  | WOWNERO
  | ZEPHYR
  | TOWNFORGE
  | YADA
  deriving DecidableEq, Repr

/-- What the parser does to its cursors and to memory. Reads are of bytes that decide what follows;
a span is recorded or copied, and `input` is what keccak is given. -/
inductive Access where
  | advance (index n : ℕ)
  | move (src dst size : ℕ)
  | read (position : ℕ)
  | span (start n : ℕ)
  | input (start n : ℕ)
  | shift (amount : ℕ)
  | write (position n capacity : ℕ)
  deriving DecidableEq, Repr

/-- Why a parse ends early: a rejected field, an exception, an access that has no defined meaning,
or a loop that takes longer than it was given. -/
inductive Stop where
  | rejected
  | outOfRange
  | undefined
  | running
  deriving DecidableEq, Repr

abbrev Read (α : Type) := Ask Stop Access ℕ UInt8 α

/-- Bytes outside the blob have no defined value. -/
def source (data : Buffer) : Source Stop Access ℕ UInt8 where
  answer position := match data[position]? with
    | some b => .ok b
    | none => .error .undefined
  note := .read

/-- A reader over `size` bytes of the blob from `base` on. -/
structure BlobReader (base size : ℕ) where
  index : ℕ := 0
  deriving DecidableEq

structure Span where
  start : ℕ := 0
  size : ℕ := 0
  deriving DecidableEq

namespace BlobReader

open Ask (question record)

variable (word : ℕ → ℕ) {base size : ℕ}

def getByte (ar : BlobReader base size) : Read (UInt8 × BlobReader base size) :=
  if size ≤ ar.index then .stop .outOfRange
  else do
    let b ← question (base + ar.index)
    record (.move ar.index (ar.index + 1) size)
    pure (b, ⟨ar.index + 1⟩)

/-- The bytes of a varint, of which ten are shifted to their place and an eleventh has none. -/
def varintLoop : ℕ → ℕ → ℕ → BlobReader base size → Read (ℕ × BlobReader base size)
  | 0, shift, _, ar => do
      let (_, _) ← getByte ar
      record (.shift shift)
      .stop .undefined
  | left + 1, shift, result, ar => do
      let (t, ar) ← getByte ar
      record (.shift shift)
      let result := result ||| (t.toNat % 128) <<< shift % 2 ^ 64
      if 128 ≤ t.toNat then varintLoop left (shift + 7) result ar else pure (result, ar)

def getVarint (ar : BlobReader base size) : Read (ℕ × BlobReader base size) :=
  varintLoop 10 0 0 ar

def skip (n : ℕ) (ar : BlobReader base size) : Read (BlobReader base size) := do
  let dst := word (ar.index + n)
  record (.advance ar.index n)
  if size < dst then .stop .outOfRange
  else do
    record (.move ar.index dst size)
    pure ⟨dst⟩

def getSpan (n : ℕ) (ar : BlobReader base size) : Read (Span × BlobReader base size) := do
  let next ← skip word n ar
  record (.span (base + ar.index) n)
  pure (⟨base + ar.index, n⟩, next)

end BlobReader

namespace BlockTemplate

def kHashSize : ℕ := 32
def kKeySize : ℕ := 32
def kNonceSize : ℕ := 4
def kSignatureSize : ℕ := 64
def kMinSize : ℕ := 76

end BlockTemplate

structure BlockTemplate where
  majorVersion : UInt8 := 0
  minorVersion : UInt8 := 0
  timestamp : ℕ := 0
  prevId : Span := {}
  minerSignature : Span := {}
  vote : Span := {}
  txVersion : ℕ := 0
  unlockTime : ℕ := 0
  numInputs : ℕ := 0
  inputType : UInt8 := 0
  height : ℕ := 0
  numOutputs : ℕ := 0
  amount : ℕ := 0
  outputType : UInt8 := 0
  ephPublicKey : Span := {}
  carrotViewTag : Span := {}
  janusAnchor : Span := {}
  viewTag : UInt8 := 0
  extraSize : ℕ := 0
  txExtraNonce : Span := {}
  txMergeMiningTag : Span := {}
  numHashes : ℕ := 0
  fcmpTreeLayers : UInt8 := 0
  fcmpTreeRoot : Span := {}
  nonceOffset : ℕ := 0
  minerTxPrefixOffset : ℕ := 0
  minerTxPrefixEndOffset : ℕ := 0
  ephPublicKeyOffset : ℕ := 0
  txExtraOffset : ℕ := 0
  txPubkeyOffset : ℕ := 0
  txExtraNonceOffset : ℕ := 0
  txExtraMergeMiningTagOffset : ℕ := 0
  hashes : List Hash := []
  merkle : BlockTemplate.MerkleRoot := { rootHash := Hash.zero }
  deriving DecidableEq

namespace BlockTemplate

open BlobReader
open Ask (record)

def slice (data : Buffer) (start n : ℕ) : Buffer := (data.drop start).take n

/-- The 32 bytes at a position of the blob. -/
def hashAt (data : Buffer) (start : ℕ) : Hash :=
  let bytes := slice data start kHashSize
  ⟨bytes ++ List.replicate (32 - bytes.length) 0, by
    have : bytes.length ≤ 32 := by simp [bytes, slice, kHashSize]
    simp
    omega⟩

def hasMinerSignature (t : BlockTemplate) : Bool := 0 < t.minerSignature.size

def isFcmp (coin : Coin) (t : BlockTemplate) : Bool := coin = .MONERO ∧ 17 ≤ t.majorVersion

variable (word : ℕ → ℕ) (coin : Coin) {base size : ℕ}

/-- Offsets are kept in 32 bits. -/
def setOffset (value : ℕ) : Read ℕ := do
  record (.span (value % 2 ^ 32) 0)
  pure (value % 2 ^ 32)

/-- A Wownero template has a miner signature from version 18 on. -/
def parseSignature (t : BlockTemplate) (ar : BlobReader base size) :
    Read (BlockTemplate × BlobReader base size) :=
  if coin = .WOWNERO ∧ 18 ≤ t.majorVersion then do
    let (minerSignature, ar) ← getSpan word kSignatureSize ar
    let (vote, ar) ← getSpan word 2 ar
    pure ({ t with minerSignature, vote }, ar)
  else pure (t, ar)

/-- A Zephyr header ends with a pricing record. -/
def parsePricingRecord (ar : BlobReader base size) : Read (BlobReader base size) :=
  if coin = .ZEPHYR then do
    let (_, ar) ← getSpan word 120 ar
    pure ar
  else pure ar

def parseHeader (ar : BlobReader base size) : Read (BlockTemplate × BlobReader base size) := do
  let (majorVersion, ar) ← getByte ar
  let (minorVersion, ar) ← getByte ar
  let (timestamp, ar) ← getVarint ar
  let (prevId, ar) ← getSpan word kHashSize ar
  let nonceOffset ← setOffset ar.index
  pure ({ majorVersion, minorVersion, timestamp, prevId, nonceOffset }, ar)

def parseUnlockTime (here : Bool) (t : BlockTemplate) (ar : BlobReader base size) :
    Read (BlockTemplate × BlobReader base size) :=
  if here then do
    let (unlockTime, ar) ← getVarint ar
    pure ({ t with unlockTime }, ar)
  else pure (t, ar)

def parseInput (t : BlockTemplate) (ar : BlobReader base size) :
    Read (BlockTemplate × BlobReader base size) := do
  let (txVersion, ar) ← getVarint ar
  let (t, ar) ← parseUnlockTime (coin ≠ .TOWNFORGE) { t with txVersion } ar
  let (numInputs, ar) ← getVarint ar
  if numInputs ≠ 1 then Ask.stop .rejected
  else do
    let (inputType, ar) ← getByte ar
    if inputType ≠ 0xFF then Ask.stop .rejected
    else do
      let (height, ar) ← getVarint ar
      let (numOutputs, ar) ← getVarint ar
      if if coin = .ZEPHYR then numOutputs < 2 else numOutputs ≠ 1 then Ask.stop .rejected
      else pure ({ t with numInputs, inputType, height, numOutputs }, ar)

/-- The name of an asset type of Zephyr, and the view tag after it. -/
def parseAssetType (ar : BlobReader base size) : Read (UInt8 × BlobReader base size) := do
  let (assetTypeLen, ar) ← getVarint ar
  let ar ← skip word assetTypeLen ar
  getByte ar

/-- The outputs of a Zephyr transaction after the first one. -/
def parseOutputs : ℕ → BlobReader base size → Read (BlobReader base size)
  | 0, ar => pure ar
  | left + 1, ar => do
      let (_, ar) ← getVarint ar
      let (outputType, ar) ← getByte ar
      if outputType ≠ 2 then Ask.stop .rejected
      else do
        let (_, ar) ← getSpan word kKeySize ar
        let (_, ar) ← parseAssetType word ar
        parseOutputs left ar

def parseCarrot (t : BlockTemplate) (ar : BlobReader base size) :
    Read (BlockTemplate × BlobReader base size) :=
  if isFcmp coin t then do
    let (carrotViewTag, ar) ← getSpan word 3 ar
    let (janusAnchor, ar) ← getSpan word 16 ar
    pure ({ t with carrotViewTag, janusAnchor }, ar)
  else pure (t, ar)

def parseViewTag (t : BlockTemplate) (ar : BlobReader base size) :
    Read (BlockTemplate × BlobReader base size) :=
  if coin = .ZEPHYR then
    if t.outputType ≠ 2 then Ask.stop .rejected
    else do
      let (viewTag, ar) ← parseAssetType word ar
      let ar ← parseOutputs word (t.numOutputs - 1) ar
      pure ({ t with viewTag }, ar)
  else if t.outputType = 3 then do
    let (viewTag, ar) ← getByte ar
    pure ({ t with viewTag }, ar)
  else pure (t, ar)

def parseOutput (t : BlockTemplate) (ar : BlobReader base size) :
    Read (BlockTemplate × BlobReader base size) := do
  let (amount, ar) ← getVarint ar
  let (outputType, ar) ← getByte ar
  if ¬ (isFcmp coin t ∧ outputType = 0) ∧ outputType ≠ 2 ∧ outputType ≠ 3 then
    Ask.stop .rejected
  else do
    let ephPublicKeyOffset ← setOffset ar.index
    let (ephPublicKey, ar) ← getSpan word kKeySize ar
    let (t, ar) ← parseCarrot word coin
      { t with amount, outputType, ephPublicKeyOffset, ephPublicKey } ar
    let (t, ar) ← parseViewTag word coin t ar
    parseUnlockTime (coin = .TOWNFORGE) t ar

/-- The first public key of the extra data is the one that is remembered. -/
def setPubkeyOffset (first : Bool) (t : BlockTemplate) (ar : BlobReader base size) :
    Read BlockTemplate :=
  if first then do
    let txPubkeyOffset ← setOffset (t.txExtraOffset + ar.index)
    pure { t with txPubkeyOffset }
  else pure t

def parseField (first : Bool) (t : BlockTemplate) (ar : BlobReader base size) :
    Read (Bool × BlockTemplate × BlobReader base size) := do
  let (tag, ar) ← getVarint ar
  if tag = 1 then do
    let t ← setPubkeyOffset first t ar
    let ar ← skip word kKeySize ar
    pure (false, t, ar)
  else if tag = 2 then do
    let (size, ar) ← getVarint ar
    let txExtraNonceOffset ← setOffset (t.txExtraOffset + ar.index)
    let (txExtraNonce, ar) ← getSpan word size ar
    pure (first, { t with txExtraNonceOffset, txExtraNonce }, ar)
  else if tag = 3 then do
    let (size, ar) ← getVarint ar
    let txExtraMergeMiningTagOffset ← setOffset (t.txExtraOffset + ar.index)
    let (txMergeMiningTag, ar) ← getSpan word size ar
    pure (first, { t with txExtraMergeMiningTagOffset, txMergeMiningTag }, ar)
  else Ask.stop .rejected

/-- The loop over the extra data, which a length that wraps may send back to where it was. -/
def parseExtra : ℕ → Bool → BlockTemplate → BlobReader base size → Read BlockTemplate
  | 0, _, t, ar => if ar.index < t.extraSize then Ask.stop .running else pure t
  | fuel + 1, first, t, ar =>
      if ar.index < t.extraSize then do
        let (first, t, ar) ← parseField word first t ar
        parseExtra fuel first t ar
      else pure t

/-- The extra data has a reader of its own. -/
def parseTxExtra (fuel : ℕ) (t : BlockTemplate) (ar : BlobReader base size) :
    Read (BlockTemplate × BlobReader base size) := do
  let (extraSize, ar) ← getVarint ar
  let txExtraOffset ← setOffset ar.index
  let arExtra : BlobReader txExtraOffset extraSize := {}
  let ar ← skip word extraSize ar
  let t ← parseExtra word fuel true { t with extraSize, txExtraOffset } arExtra
  pure (t, ar)

def parsePrices (ar : BlobReader base size) : Read (BlobReader base size) :=
  if coin = .ZEPHYR then do
    let (_, ar) ← getVarint ar
    let (_, ar) ← getVarint ar
    let (_, ar) ← getVarint ar
    pure ar
  else pure ar

/-- The miner transaction, from its prefix to the end of the prefix. -/
def parseMinerTx (fuel : ℕ) (t : BlockTemplate) (ar : BlobReader base size) :
    Read (BlockTemplate × BlobReader base size) := do
  let minerTxPrefixOffset ← setOffset ar.index
  let (t, ar) ← parseInput coin { t with minerTxPrefixOffset } ar
  let (t, ar) ← parseOutput word coin t ar
  let (t, ar) ← parseTxExtra word fuel t ar
  let ar ← parsePrices coin ar
  let minerTxPrefixEndOffset ← setOffset ar.index
  pure ({ t with minerTxPrefixEndOffset }, ar)

/-- keccak takes its length as an `int`; a negative one is copied as a huge size. -/
def inputLength (start stop : ℕ) : ℕ :=
  let inlen := ((stop : ℤ) - start).bmod (2 ^ 32)
  if 0 ≤ inlen then inlen.toNat else (2 ^ 64 + inlen).toNat

def hashInput (length start stop : ℕ) : Read Unit := do
  let n := inputLength start stop
  record (.input start n)
  if start + n ≤ length then pure () else .stop .undefined

def store (position n capacity : ℕ) : Read Unit := do
  record (.write position n capacity)
  if position + n ≤ capacity then pure () else .stop .undefined

/-- A vector of bytes holds less than `2 ^ 63` of them. -/
def resize (capacity : ℕ) : Read Unit :=
  if 2 ^ 63 ≤ capacity then .stop .outOfRange else pure ()

/-- Copies the transaction hashes behind the coinbase. -/
def parseHashes (capacity : ℕ) :
    ℕ → ℕ → BlobReader base size → Read (List Span × BlobReader base size)
  | 0, _, ar => pure ([], ar)
  | left + 1, i, ar => do
      let (h, ar) ← getSpan word kHashSize ar
      store (i * kHashSize) kHashSize capacity
      let (rest, ar) ← parseHashes capacity left (i + 1) ar
      pure (h :: rest, ar)

/-- FCMP++ puts the number of tree layers and the tree root before the coinbase. -/
def parseFcmp (capacity : ℕ) (t : BlockTemplate) (ar : BlobReader base size) :
    Read (BlockTemplate × BlobReader base size) :=
  if isFcmp coin t then do
    let (fcmpTreeLayers, ar) ← getByte ar
    let (fcmpTreeRoot, ar) ← getSpan word kHashSize ar
    store 0 1 capacity
    store kHashSize kHashSize capacity
    pure ({ t with fcmpTreeLayers, fcmpTreeRoot }, ar)
  else pure (t, ar)

def coinbaseTxIndex (t : BlockTemplate) : ℕ := if isFcmp coin t then 2 else 0

/-- The buffer of the hashes is made for their number, and filled. -/
def parseRootHashes (length : ℕ) (t : BlockTemplate) (ar : BlobReader base size) :
    Read (BlockTemplate × Option (List Span)) := do
  let index := coinbaseTxIndex coin t
  let capacity := (index + t.numHashes + 1) % 2 ^ 64 * kHashSize % 2 ^ 64
  resize capacity
  hashInput length t.minerTxPrefixOffset t.minerTxPrefixEndOffset
  store (index * kHashSize) kHashSize capacity
  let (spans, ar) ← parseHashes word capacity t.numHashes (index + 1) ar
  let (t, _) ← parseFcmp word coin capacity t ar
  pure (t, some spans)

/-- The transaction hashes come with the template when they are asked for. -/
def parseRoot (length : ℕ) (hashes : Bool) (t : BlockTemplate) (ar : BlobReader base size) :
    Read (BlockTemplate × Option (List Span)) := do
  let (numHashes, ar) ← getVarint ar
  let t := { t with numHashes }
  if hashes then parseRootHashes word coin length t ar else pure (t, none)

/-- A miner transaction ends with one zero byte after its prefix. Townforge templates with a game
update are not looked into. -/
def parseTail (length : ℕ) (hashes : Bool) (t : BlockTemplate) (ar : BlobReader base size) :
    Read (BlockTemplate × Option (List Span)) := do
  let (vinRctType, ar) ← getByte ar
  if coin = .TOWNFORGE ∧ t.height % 720 = 0 then pure (t, none)
  else if vinRctType ≠ 0 then Ask.stop .rejected
  else if ar.index ≠ t.minerTxPrefixEndOffset + 1 then Ask.stop .rejected
  else do
    let last : BlobReader t.minerTxPrefixEndOffset 1 := {}
    let (byte, _) ← getByte last
    if byte ≠ 0 then Ask.stop .rejected else parseRoot word coin length hashes t ar

def parseBlob (length fuel : ℕ) (hashes : Bool) : Read (BlockTemplate × Option (List Span)) := do
  let ar : BlobReader 0 length := {}
  let (t, ar) ← parseHeader word ar
  let ar ← skip word kNonceSize ar
  let (t, ar) ← parseSignature word coin t ar
  let ar ← parsePricingRecord word coin ar
  let (t, ar) ← parseMinerTx word coin fuel t ar
  parseTail word coin length hashes t ar

section Blob

variable (keccak : Buffer → Hash) (data : Buffer)

/-- The leaves of the Merkle tree in the order of the coin and version. -/
def leaves (t : BlockTemplate) (spans : List Span) : List Hash :=
  let coinbase := calculateMinerTxHash keccak
    (slice data t.minerTxPrefixOffset (inputLength t.minerTxPrefixOffset t.minerTxPrefixEndOffset))
  let others := spans.map fun h => hashAt data h.start
  if isFcmp coin t then
    Hash.mk (t.fcmpTreeLayers :: List.replicate 31 0) rfl :: hashAt data t.fcmpTreeRoot.start ::
      coinbase :: others
  else coinbase :: others

/-- The Merkle root of a template that was read with its hashes. -/
def withRoot : BlockTemplate × Option (List Span) → BlockTemplate
  | (t, none) => t
  | (t, some spans) =>
      let hashes := leaves coin keccak data t spans
      { t with
        hashes
        merkle := calculateMerkleTreeHash keccak hashes (coinbaseTxIndex coin t) }

/-- `size_t` sums. -/
def word64 (n : ℕ) : ℕ := n % 2 ^ 64

/-- The parse as the program runs it. -/
def parse (fuel : ℕ) (hashes : Bool) : Traced Stop Access BlockTemplate :=
  if data.length < kMinSize then Traced.stop .rejected
  else (parseBlob word64 coin data.length fuel hashes).run (source data) >>= fun p =>
    pure (withRoot coin keccak data p)

end Blob

/-- What the caller gets: exceptions are caught, and an undefined or endless parse gives nothing. -/
def answer (m : Traced Stop Access BlockTemplate) : Option (Option BlockTemplate) :=
  match m.outcome with
  | .ok t => some (some t)
  | .error .rejected => some none
  | .error .outOfRange => some none
  | .error _ => none

def varint : ℕ → ℕ → Buffer
  | 0, k => [UInt8.ofNat k]
  | fuel + 1, k => if 128 ≤ k then UInt8.ofNat (k % 128 + 128) :: varint fuel (k / 128)
      else [UInt8.ofNat k]

def generateHashingBlob (data : Buffer) (t : BlockTemplate) : Buffer :=
  data.take t.minerTxPrefixOffset ++ t.merkle.rootHash.bytes ++
    varint 9 ((t.numHashes + 1) % 2 ^ 64)

end BlockTemplate

end XmrigProxy
