import Mathlib.Data.String.Basic
import XmrigProxy.GlobalShareCache
import XmrigProxy.Job
import XmrigProxy.Library.Json

/-! One downstream connection: the jobs it retains, the shares it remembers, and the checks
that a submission passes. Counters that advance once for each job or submission are
unbounded. The replies and event-stream rows of these operations are omitted. -/
namespace XmrigProxy

inductive Error where
  | NoError
  | BadGateway
  | InvalidJobId
  | InvalidMethod
  | InvalidNonce
  | LowDifficulty
  | Unauthenticated
  | IncompatibleAlgorithm
  | IncorrectAlgorithm
  | Forbidden
  | RouteNotFound
  | DuplicateShare
  | InvalidResult
  | VerificationFailed
  | CandidateRateLimit
  | StaleShare
  deriving DecidableEq, Repr

namespace Miner

def telemetryJobTtl : ℕ := 120000
def telemetryJobCount : ℕ := 6
def submissionTtl : ℕ := 120000
def maxRememberedSubmissions : ℕ := 65536

inductive Stage where
  | waitLogin
  | waitReady
  | ready
  | closing
  deriving DecidableEq, Repr

structure TelemetryJob where
  algorithm : Algorithm
  entropy : String
  hashingBlob : String
  id : String
  seedHash : String
  signatureData : Option String
  height : ℕ
  issuedAt : ℕ
  minerDiff : ℕ
  networkDiff : ℕ
  issuanceToken : ℕ
  templateGeneration : ℕ
  templateSourceId : ℕ
  nonceOffset : ℕ
  viewTag : ℕ
  extraNonce : ℤ
  deriving DecidableEq

structure SubmissionReservation where
  globalShare : GlobalShareCache.Reservation := {}
  computedGlobal : GlobalShareCache.Reservation := {}
  localKey : String := ""
  localToken : ℕ := 0
  deriving DecidableEq

structure SeenSubmission where
  key : String
  seenAt : ℕ
  token : ℕ
  deriving DecidableEq

structure SeenSubmissionStamp where
  seenAt : ℕ
  token : ℕ
  deriving DecidableEq

structure State where
  key : ℕ
  rpcId : String
  stage : Stage := .waitLogin
  nicehash : Bool := false
  mapperId : ℤ := -1
  signatureData : Option String := none
  telemetryJobs : List TelemetryJob := []
  seenSubmissions : List SeenSubmission := []
  seenSubmissionTimes : Table String SeenSubmissionStamp := ∅
  viewTag : ℕ := 0
  customDiff : ℕ := 0
  diff : ℕ := 0
  issuedDiff : ℕ := 0
  jobHeight : ℕ := 0
  jobIssuanceSequence : ℕ := 0
  submissionSequence : ℕ := 0
  templateGeneration : ℕ := 0
  verificationGeneration : ℕ := 0
  fixedByte : UInt8 := 0
  extraNonce : ℤ := -1
  deriving DecidableEq

abbrev Cache := GlobalShareCache.State

section Jobs

def unexpired (now : ℕ) (job : TelemetryJob) : Bool := now < job.issuedAt + telemetryJobTtl

def findTelemetryJob (now : ℕ) (id : String) (m : State) : Option TelemetryJob :=
  m.telemetryJobs.find? fun job => job.id = id && unexpired now job

/-- The heights that the retained jobs of one source still need, newest job first. -/
def eligibleHeights (now sourceId : ℕ) (m : State) : List ℕ :=
  (m.telemetryJobs.filter fun retained => retained.templateSourceId = sourceId &&
    decide (m.jobHeight ≤ retained.height) && unexpired now retained).map TelemetryJob.height

/-- The record of a job as the miner retains it. -/
def telemetryOf (now : ℕ) (job : Job) (hashingBlob : String) (issuedDiff : ℕ) (m : State) :
    TelemetryJob where
  algorithm := job.algorithm
  entropy := job.templateEntropy
  hashingBlob := hashingBlob
  id := job.id
  seedHash := job.rawSeedHash
  signatureData := m.signatureData
  height := job.height
  issuedAt := now
  minerDiff := issuedDiff
  networkDiff := job.diff
  issuanceToken := m.jobIssuanceSequence + 1
  templateGeneration := job.templateGeneration
  templateSourceId := job.templateSourceId
  nonceOffset := job.nonceOffset
  viewTag := m.viewTag
  extraNonce := m.extraNonce

def retain (telemetry : TelemetryJob) (m : State) : State :=
  { m with
    jobIssuanceSequence := m.jobIssuanceSequence + 1
    telemetryJobs := (telemetry :: m.telemetryJobs).take telemetryJobCount }

def rememberJob (now : ℕ) (job : Job) (hashingBlob : String) (issuedDiff : ℕ) (m : State)
    (cache : Cache) : State × Cache :=
  let m := retain (telemetryOf now job hashingBlob issuedDiff m) m
  (m, if job.templateSourceId ≠ 0 ∧ m.jobHeight ≠ 0 then
      GlobalShareCache.setOwnerHeights m.key job.templateSourceId
        (eligibleHeights now job.templateSourceId m) cache
    else cache)

/-- The write of a job message completes a pending login, whatever becomes of it. -/
def sendJob (m : State) : State := if m.stage = .waitReady then { m with stage := .ready } else m

/-- What a job message depends on besides the miner: whether the socket takes it, and what
`Job` derives for one miner when the coin signs blocks or an extra nonce is set. -/
structure Issue where
  written : Bool := true
  signatureData : String := ""
  viewTag : ℕ := 0
  hashingBlob : String := ""
  deriving DecidableEq

/-- The difficulty of the compact target that a custom difficulty is issued with. -/
def issuedCustomDiff (customDiff diff : ℕ) : ℕ :=
  let compactTarget := 0xFFFFFFFFFFFFFFFF / customDiff / 2 ^ 32
  if compactTarget ≠ 0 then
    Job.toDiff (0xFFFFFFFFFFFFFFFF / (0xFFFFFFFF / compactTarget))
  else diff

def deliver (now : ℕ) (written : Bool) (job : Job) (hashingBlob : String) (m : State)
    (cache : Cache) : State × Cache :=
  let m := sendJob m
  if !written then (m, cache)
  else rememberJob now job hashingBlob m.issuedDiff { m with jobHeight := job.height } cache

def forwardJob (now : ℕ) (issue : Issue) (job : Job) (m : State) (cache : Cache) :
    State × Cache :=
  deliver now issue.written job job.rawBlob
    { m with
      diff := job.diff
      issuedDiff := job.diff
      templateGeneration := job.templateGeneration
      signatureData := job.rawSigKey
      viewTag := 0
      extraNonce := -1
      fixedByte := job.fixedByte } cache

/-- The blob of a job, with the miner's own byte in the nonce where miners share a job. -/
def personalBlob (job : Job) (m : State) : String :=
  if m.nicehash then
    String.ofList (Hex.patch job.rawBlob.toList ((job.nonceOffset + 3) * 2)
      (Hex.encode [m.fixedByte]))
  else job.rawBlob

def setJob (now : ℕ) (issue : Issue) (job : Job) (extraNonce : ℤ) (m : State) (cache : Cache) :
    State × Cache :=
  deliver now issue.written job
    (if job.hasMinerSignature ∨ 0 ≤ extraNonce then issue.hashingBlob else personalBlob job m)
    { m with
      diff := job.diff
      issuedDiff := if m.customDiff ≠ 0 ∧ m.customDiff < job.diff then
          issuedCustomDiff m.customDiff job.diff else job.diff
      templateGeneration := job.templateGeneration
      signatureData := if job.hasMinerSignature then some issue.signatureData else job.rawSigKey
      viewTag := if job.hasMinerSignature then issue.viewTag else 0
      extraNonce := extraNonce } cache

def clearTelemetryJobs (m : State) (cache : Cache) : State × Cache :=
  ({ m with
      telemetryJobs := []
      issuedDiff := 0
      jobHeight := 0
      verificationGeneration := m.verificationGeneration + 1 },
    GlobalShareCache.removeOwner m.key cache)

@[simp] theorem sendJob_key (m : State) : (sendJob m).key = m.key := by
  unfold sendJob
  split <;> rfl

@[simp] theorem sendJob_telemetryJobs (m : State) :
    (sendJob m).telemetryJobs = m.telemetryJobs := by
  unfold sendJob
  split <;> rfl

@[simp] theorem deliver_key (now : ℕ) (written : Bool) (job : Job) (blob : String) (m : State)
    (cache : Cache) : (deliver now written job blob m cache).1.key = m.key := by
  unfold deliver
  dsimp only
  split
  · exact sendJob_key m
  · exact sendJob_key m

end Jobs

section Submissions

def isStale (submittedHeight latestSentHeight : ℕ) : Bool :=
  submittedHeight ≠ 0 && submittedHeight < latestSentHeight

/-- Forgets expired local submissions, and the oldest ones while the memory is full. -/
def expireSeen (now : ℕ) : List SeenSubmission → Table String SeenSubmissionStamp →
    List SeenSubmission × Table String SeenSubmissionStamp
  | [], times => ([], times)
  | oldest :: rest, times =>
      if oldest.seenAt + submissionTtl ≤ now ∨ maxRememberedSubmissions ≤ rest.length + 1 then
        expireSeen now rest
          (if (times.find oldest.key).map SeenSubmissionStamp.token = some oldest.token then
            times.erase oldest.key else times)
      else (oldest :: rest, times)

def rememberSubmission (now : ℕ) (job : TelemetryJob) (jobId nonce resultHash : Option String)
    (m : State) (cache : Cache) :
    GlobalShareCache.Result × SubmissionReservation × State × Cache :=
  match jobId, nonce with
  | some jobId, some nonce =>
      if job.templateSourceId ≠ 0 ∧ job.height ≠ 0 then
        match resultHash.bind (GlobalShareCache.makeKey job.entropy) with
        | none => (.invalid, {}, m, cache)
        | some key =>
            let (result, reservation, cache) :=
              GlobalShareCache.reserve job.templateSourceId job.height key cache
            (result, { globalShare := reservation }, m, cache)
      else
        let key := (jobId ++ ":" ++ nonce).toLower
        let (seen, times) := expireSeen now m.seenSubmissions m.seenSubmissionTimes
        let m := { m with seenSubmissions := seen, seenSubmissionTimes := times }
        if (times.find key).any fun stamp => now < stamp.seenAt + submissionTtl then
          (.duplicate, {}, m, cache)
        else
          let token := m.submissionSequence + 1
          (.accepted, { localKey := key, localToken := token },
            { m with
              submissionSequence := token
              seenSubmissions := m.seenSubmissions ++ [⟨key, now, token⟩]
              seenSubmissionTimes := m.seenSubmissionTimes.insert key ⟨now, token⟩ }, cache)
  | _, _ => (.invalid, {}, m, cache)

def forgetSubmission (reservation : SubmissionReservation) (m : State) (cache : Cache) :
    State × Cache :=
  let cache := GlobalShareCache.release reservation.computedGlobal
    (GlobalShareCache.release reservation.globalShare cache)
  if reservation.localKey = "" ∨ reservation.localToken = 0 then (m, cache)
  else if (m.seenSubmissionTimes.find reservation.localKey).map SeenSubmissionStamp.token =
      some reservation.localToken then
    ({ m with seenSubmissionTimes := m.seenSubmissionTimes.erase reservation.localKey }, cache)
  else (m, cache)

/-- What the submit branch needs besides the miner: the names of the algorithms, which
depend on the build, and whether a verifier is configured. -/
structure Config where
  algorithmOf : String → Algorithm := fun _ => Algorithm.INVALID
  verifier : Bool := false

variable (config : Config)

def submittedAlgorithm (params : Json) : Algorithm :=
  ((params.text "algo").map config.algorithmOf).getD Algorithm.INVALID

/-- An `algo` member must be a string, empty or the name of an algorithm. -/
def invalidAlgorithmField (params : Json) : Bool :=
  match params.member "algo" with
  | none => false
  | some _ =>
      match params.text "algo" with
      | none => true
      | some name => name ≠ "" && !(config.algorithmOf name).isValid

def isHexOf (size : ℕ) (text : Option String) : Bool :=
  text.any fun text => text.length = size * 2 && (Hex.decode text.toList).isSome

/-- The event created for a submit request, with the metadata of the job that it names. -/
def submitRequest (id : ℤ) (shareId : ℕ) (params : Json) (job : Option TelemetryJob)
    (m : State) : JobResult :=
  let request : JobResult :=
    { algorithm := submittedAlgorithm config params
      nonce := params.text "nonce"
      result := params.text "result"
      sig := params.text "sig"
      sigData := (job.map TelemetryJob.signatureData).getD m.signatureData
      commitment := params.text "commitment"
      viewTag := (job.map TelemetryJob.viewTag).getD m.viewTag
      id := id
      extraNonce := (job.map TelemetryJob.extraNonce).getD m.extraNonce
      jobId := params.text "job_id"
      shareId := shareId }
  match job with
  | none => request
  | some job =>
      { request with
        templateEntropy := job.entropy
        height := job.height
        minerDiff := job.minerDiff
        networkDiff := job.networkDiff
        templateGeneration := job.templateGeneration
        templateSourceId := job.templateSourceId }

def claimedCandidate (request : JobResult) (job : TelemetryJob) : Bool :=
  job.networkDiff ≠ 0 && job.networkDiff ≤ request.actualDiff

def duplicateError : GlobalShareCache.Result → Error
  | .accepted => .NoError
  | .duplicate => .DuplicateShare
  | .capacity | .invalid => .VerificationFailed

/-- The checks of the submit branch in their order; the last one is the duplicate check. -/
def checkSubmission (now : ℕ) (params : Json) (request : JobResult) (job : Option TelemetryJob)
    (m : State) (cache : Cache) : Error × SubmissionReservation × State × Cache :=
  match request.jobId, job with
  | some _, some job =>
      if !isHexOf 4 request.nonce then (.InvalidNonce, {}, m, cache)
      else if !isHexOf 32 request.result then (.InvalidResult, {}, m, cache)
      else if invalidAlgorithmField config params ||
          (request.algorithm.isValid && request.algorithm ≠ job.algorithm) then
        (.IncorrectAlgorithm, {}, m, cache)
      else if isStale job.height m.jobHeight then (.StaleShare, {}, m, cache)
      else if !config.verifier && request.actualDiff < job.minerDiff then
        (.LowDifficulty, {}, m, cache)
      else if m.nicehash && !request.isCompatible m.fixedByte then (.InvalidNonce, {}, m, cache)
      else
        let (result, reservation, m, cache) :=
          rememberSubmission now job request.jobId request.nonce request.result m cache
        (duplicateError result, reservation, m, cache)
  | _, _ => (.InvalidJobId, {}, m, cache)

variable {config}

/-- Remembering a share changes nothing about the miner but its local memory, and touches
the cache by one reservation under the key of the share, if at all. -/
theorem rememberSubmission_cases (now : ℕ) (job : TelemetryJob)
    (jobId nonce resultHash : Option String) (m : State) (cache : Cache) :
    let r := rememberSubmission now job jobId nonce resultHash m cache
    (∃ seen times sequence, r.2.2.1 = { m with
        seenSubmissions := seen, seenSubmissionTimes := times, submissionSequence := sequence }) ∧
      r.2.1.computedGlobal = {} ∧
      ((r.2.1.globalShare = {} ∧ r.2.2.2 = cache) ∨
        ∃ key, resultHash.bind (GlobalShareCache.makeKey job.entropy) = some key ∧
          r.1 = (GlobalShareCache.reserve job.templateSourceId job.height key cache).1 ∧
          r.2.1.globalShare =
            (GlobalShareCache.reserve job.templateSourceId job.height key cache).2.1 ∧
          r.2.2.2 = (GlobalShareCache.reserve job.templateSourceId job.height key cache).2.2) := by
  intro r
  have hr : r = rememberSubmission now job jobId nonce resultHash m cache := rfl
  unfold rememberSubmission at hr
  split at hr
  · next jobId nonce =>
    split at hr
    · split at hr
      · rw [hr]
        exact ⟨⟨_, _, _, rfl⟩, rfl, Or.inl ⟨rfl, rfl⟩⟩
      · next key hkey =>
        rw [hr]
        exact ⟨⟨_, _, _, rfl⟩, rfl, Or.inr ⟨key, hkey, rfl, rfl, rfl⟩⟩
    · dsimp only at hr
      split at hr
      all_goals
        rw [hr]
        exact ⟨⟨_, _, _, rfl⟩, rfl, Or.inl ⟨rfl, rfl⟩⟩
  · rw [hr]
    exact ⟨⟨_, _, _, rfl⟩, rfl, Or.inl ⟨rfl, rfl⟩⟩

/-- Either a check before the duplicate check refuses the share and nothing changes, or
all of them pass and the share is remembered. -/
theorem checkSubmission_cases (now : ℕ) (params : Json) (request : JobResult)
    (job : Option TelemetryJob) (m : State) (cache : Cache) :
    let r := checkSubmission config now params request job m cache
    (r.1 ≠ .NoError ∧ r.2 = ({}, m, cache)) ∨
      ∃ retained, job = some retained ∧ isHexOf 4 request.nonce = true ∧
        isHexOf 32 request.result = true ∧ isStale retained.height m.jobHeight = false ∧
        (config.verifier = false → retained.minerDiff ≤ request.actualDiff) ∧
        r.1 = duplicateError (rememberSubmission now retained request.jobId request.nonce
          request.result m cache).1 ∧
        r.2 = (rememberSubmission now retained request.jobId request.nonce request.result m
          cache).2 := by
  intro r
  have hr : r = checkSubmission config now params request job m cache := rfl
  unfold checkSubmission at hr
  split at hr
  · next jobId retained _ =>
    split at hr
    · exact Or.inl (by simp [hr])
    · next hnonce =>
      split at hr
      · exact Or.inl (by simp [hr])
      · next hresult =>
        split at hr
        · exact Or.inl (by simp [hr])
        · split at hr
          · exact Or.inl (by simp [hr])
          · next hstale =>
            split at hr
            · exact Or.inl (by simp [hr])
            · next hlow =>
              split at hr
              · exact Or.inl (by simp [hr])
              · right
                refine ⟨retained, rfl, by simpa using hnonce, by simpa using hresult,
                  by simpa using hstale, ?_, by simp [hr], by simp [hr]⟩
                intro hverifier
                simpa [hverifier] using hlow
  · exact Or.inl (by simp [hr])

end Submissions

end Miner

end XmrigProxy
