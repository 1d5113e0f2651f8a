import XmrigProxy.Library.Hex
import Mathlib.Data.Nat.Bitwise

/-! Algorithms, jobs and the difficulty of a result. -/
namespace XmrigProxy

abbrev Algorithm := ℕ

namespace Algorithm

def INVALID : Algorithm := 0
def RX_0 : Algorithm := 0x72151200
def RX_YADA : Algorithm := 0x72151279

def CN_ANY : ℕ := 0x63000000
def UNKNOWN : ℕ := 0
def KAWPOW : ℕ := 0x6b000000
def GHOSTRIDER : ℕ := 0x6c000000

def isCN (id : Algorithm) : Bool := id &&& 0xff000000 = CN_ANY

def family (id : Algorithm) : ℕ := id &&& (if isCN id then 0xffff0000 else 0xff000000)

def isValid (id : Algorithm) : Bool := id ≠ INVALID && UNKNOWN < family id

end Algorithm

/-- A job as its upstream issued it. `blob` is the decoded form of `rawBlob`. -/
structure Job where
  algorithm : Algorithm
  clientId : String := ""
  id : String
  poolWallet : String := ""
  blob : List UInt8 := []
  diff : ℕ
  height : ℕ
  rawBlob : String
  rawSeedHash : String := ""
  rawSigKey : Option String := none
  templateEntropy : String := ""
  templateGeneration : ℕ := 0
  templateSourceId : ℕ := 0
  hasMinerSignature : Bool := false
  hasViewTag : Bool := false
  deriving DecidableEq

namespace Job

/-- What a job variable holds before the first job. -/
def initial : Job :=
  { algorithm := Algorithm.INVALID, id := "", diff := 0, height := 0, rawBlob := "" }

def isValid (job : Job) : Bool :=
  (0 < job.blob.length && 0 < job.diff) || job.poolWallet ≠ ""

def reset (job : Job) : Job := { job with blob := [], diff := 0 }

def nonceOffsetOf (algorithm : Algorithm) : ℕ :=
  if algorithm.family = Algorithm.KAWPOW then 32
  else if algorithm.family = Algorithm.GHOSTRIDER then 76
  else if algorithm = Algorithm.RX_YADA then 147
  else 39

def nonceOffset (job : Job) : ℕ := nonceOffsetOf job.algorithm

def nonceSizeOf (algorithm : Algorithm) : ℕ :=
  if algorithm.family = Algorithm.KAWPOW then 8 else 4

def fixedByte (job : Job) : UInt8 := job.blob.getD 42 0

def toDiff (target : ℕ) : ℕ := if target = 0 then 0 else 0xFFFFFFFFFFFFFFFF / target

end Job

def littleEndian : List UInt8 → ℕ
  | [] => 0
  | b :: rest => b.toNat + 256 * littleEndian rest

/-- A submitted share, with the metadata of the job that it answers. -/
structure JobResult where
  algorithm : Algorithm := Algorithm.INVALID
  nonce : Option String := none
  result : Option String := none
  sig : Option String := none
  sigData : Option String := none
  commitment : Option String := none
  viewTag : ℕ := 0
  id : ℤ := 0
  extraNonce : ℤ := -1
  jobId : Option String := none
  templateEntropy : String := ""
  shareId : ℕ := 0
  diff : ℕ := 0
  height : ℕ := 0
  minerDiff : ℕ := 0
  networkDiff : ℕ := 0
  templateGeneration : ℕ := 0
  templateSourceId : ℕ := 0
  deriving DecidableEq

namespace JobResult

/-- The difficulty of a 32-byte hash, read from its last eight bytes. -/
def difficulty (result : String) : ℕ :=
  if result.length = 64 then
    match Hex.decode (result.toList.drop 48) with
    | none => 0
    | some bytes =>
        let target := littleEndian bytes
        -- the strongest possible share, not an invalid difficulty
        if target = 0 then 0xFFFFFFFFFFFFFFFF else Job.toDiff target
  else 0

def actualDiff (request : JobResult) : ℕ := (request.result.map difficulty).getD 0

def isCompatible (request : JobResult) (fixedByte : UInt8) : Bool :=
  match request.nonce.bind fun nonce => Hex.decode (nonce.toList.take 8) with
  | some bytes => bytes[3]? = some fixedByte
  | none => false

end JobResult

end XmrigProxy
