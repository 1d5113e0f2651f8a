import XmrigProxy.Miner
import XmrigProxy.RandomXVerifier

/-! The way of a submitted share: the submit branch of a request, the verification that it
may start, and the completion of that verification. A `PendingShare` is owned by the
callback of its verification request; when it is destroyed it gives its reservations back
unless it was told to retain them. What a dispatched event is answered by the rest of the
proxy, and whether a reply shuts the connection down, are inputs. -/
namespace XmrigProxy.ShareVerification

open GlobalShareCache (Reservation hasHeight held)

structure PendingShare where
  algorithm : Algorithm
  mapperId : ℤ
  requestId : ℤ
  extraNonce : ℤ
  viewTag : ℕ
  shareId : ℕ
  height : ℕ
  minerDiff : ℕ
  networkDiff : ℕ
  issuanceToken : ℕ
  verificationGeneration : ℕ
  templateGeneration : ℕ
  templateSourceId : ℕ
  candidateFallback : Bool
  jobId : String
  nonce : String
  claimedHash : String
  hashingBlob : String
  seedHash : String
  signature : Option String
  signatureData : Option String
  commitment : Option String
  entropy : String
  submission : Miner.SubmissionReservation
  retainSubmission : Bool := false
  deriving DecidableEq

/-- The callback of a verification request: the miner's key and the share. -/
structure Callback where
  key : ℕ
  share : PendingShare
  deriving DecidableEq

structure Config where
  algorithmOf : String → Algorithm := fun _ => Algorithm.INVALID
  verifier : Option RandomXVerifier.Options := none

def Config.miner (config : Config) : Miner.Config :=
  { algorithmOf := config.algorithmOf, verifier := config.verifier.isSome }

structure System where
  now : ℕ := 0
  miners : Table ℕ Miner.State := ∅
  nextKey : ℕ := 0
  shareSequence : ℕ := 0
  cache : GlobalShareCache.State := {}
  verifier : RandomXVerifier.State Callback := {}

/-- What a mapper leaves in a submit event that it handles. -/
inductive Answer where
  | accepted
  | badGateway
  | invalidJobId
  | incorrectAlgorithm
  deriving DecidableEq

def Answer.error : Answer → Error
  | .accepted => .NoError
  | .badGateway => .BadGateway
  | .invalidJobId => .InvalidJobId
  | .incorrectAlgorithm => .IncorrectAlgorithm

/-- What one event depends on besides the state. `dispatch` answers the submit events that
no check refused; `closes` tells which replies shut their connection down, because the write
fails or a streak of failures is too long. -/
structure Env where
  pipeInit : Bool := true
  write : ℕ → RandomXVerifier.WriteOutcome := fun _ => .sent
  dispatch : JobResult → Answer := fun _ => .accepted
  closes : ℕ → Bool := fun _ => false

/-- How the handling of a share ended; `credited` carries the computed hash. -/
inductive Verdict where
  | submitted
  | credited (share : PendingShare) (hash : String)
  | creditedUnverified
  | refused (error : Error)
  | abandoned
  deriving DecidableEq

/-- The end of one submission: whether it answers a job of a daemon, whether the cache held
its reservation at the moment of the verdict, and whether it still does when the handling is
over. -/
structure Outcome where
  key : ℕ
  shareId : ℕ
  daemon : Bool
  reservation : Reservation
  verdict : Verdict
  heldThen : Bool
  heldAfter : Bool
  deriving DecidableEq

inductive Observation where
  | reserved (key shareId : ℕ) (reservation : Reservation)
  | ended (outcome : Outcome)
  deriving DecidableEq

/-- Jobs of a daemon carry the source and the height of their template. -/
def ofTemplate (sourceId height : ℕ) : Bool := sourceId ≠ 0 && height ≠ 0

variable (config : Config) (env : Env)

def verifierEnv (s : System) : RandomXVerifier.Env :=
  { now := s.now, pipeInit := env.pipeInit, write := env.write }

section Primitives

def isInfrastructureFailure (error : Error) : Bool :=
  error = .BadGateway || error = .VerificationFailed

def shutdown (key : ℕ) (s : System) : System :=
  { s with miners := s.miners.modify key fun m => { m with stage := .closing } }

/-- A reply to one miner, which may shut its connection down. -/
def reply (key shareId : ℕ) (s : System) : System :=
  if env.closes shareId then shutdown key s else s

def forgetSubmission (key : ℕ) (submission : Miner.SubmissionReservation) (s : System) : System :=
  match s.miners.find key with
  | none => s
  | some m =>
      { s with
        miners := s.miners.insert key (Miner.forgetSubmission submission m s.cache).1
        cache := (Miner.forgetSubmission submission m s.cache).2 }

/-- The destructor of a pending share. -/
def destroyShare (share : PendingShare) (s : System) : System :=
  if share.retainSubmission then s
  else
    let cache := GlobalShareCache.release share.submission.globalShare s.cache
    { s with cache := GlobalShareCache.release share.submission.computedGlobal cache }

/-- The event created from a pending share, with the given result. -/
def shareRequest (share : PendingShare) (result : String) : JobResult :=
  { algorithm := share.algorithm
    nonce := some share.nonce
    result := some result
    sig := share.signature
    sigData := share.signatureData
    commitment := share.commitment
    viewTag := share.viewTag
    id := share.requestId
    extraNonce := share.extraNonce
    jobId := some share.jobId
    templateEntropy := share.entropy
    shareId := share.shareId
    height := share.height
    minerDiff := share.minerDiff
    networkDiff := share.networkDiff
    templateGeneration := share.templateGeneration
    templateSourceId := share.templateSourceId }

end Primitives

section Completion

/-- A completion that has reached its verdict; the share is not destroyed yet. -/
structure Completion where
  share : PendingShare
  system : System
  verdict : Verdict
  heldThen : Bool

def conclude (share : PendingShare) (verdict : Verdict) (s : System) : Completion :=
  ⟨share, s, verdict, held s.cache share.submission.globalShare⟩

def retainShare (share : PendingShare) : PendingShare := { share with retainSubmission := true }

def rejectPendingShare (key : ℕ) (share : PendingShare) (error : Error) (s : System) :
    Completion :=
  conclude share (.refused error) (reply env key share.shareId s)

/-- Dispatches the event of a pending share and settles the share by the answer. -/
def submitPendingShare (key : ℕ) (share : PendingShare) (result : String) (s : System) :
    Completion :=
  let error := (env.dispatch (shareRequest share result)).error
  if error = .NoError then conclude (retainShare share) .submitted s
  else
    let s := reply env key share.shareId s
    if isInfrastructureFailure error then
      conclude share (.refused error) (forgetSubmission key share.submission s)
    else conclude (retainShare share) (.refused error) s

/-- The completion after a failed verification. -/
def failVerification (options : RandomXVerifier.Options) (key : ℕ) (share : PendingShare)
    (s : System) : Completion :=
  if share.candidateFallback then
    let (granted, verifier) :=
      RandomXVerifier.allowEmergencyCandidate options (verifierEnv env s) key s.verifier
    let s := { s with verifier := verifier }
    if granted then submitPendingShare env key share share.claimedHash s
    else rejectPendingShare env key share .CandidateRateLimit
      (forgetSubmission key share.submission s)
  else rejectPendingShare env key share .VerificationFailed
    (forgetSubmission key share.submission s)

/-- The second identity of a share whose claimed hash is not the computed one. -/
def reserveComputed (share : PendingShare) (hash : String) (s : System) :
    GlobalShareCache.Result × PendingShare × System :=
  match GlobalShareCache.makeKey share.entropy hash with
  | none => (.invalid, share, s)
  | some key =>
      let (result, reservation, cache) :=
        GlobalShareCache.reserve share.templateSourceId share.height key s.cache
      (result, { share with submission := { share.submission with computedGlobal := reservation } },
        { s with cache := cache })

/-- The decision on a share whose hash was computed, once its identities are reserved. -/
def decideShare (key : ℕ) (share : PendingShare) (hash : String) (exact : Bool) (s : System) :
    Completion :=
  let actualDiff := JobResult.difficulty hash
  if share.networkDiff ≠ 0 ∧ actualDiff ≠ 0 ∧ share.networkDiff ≤ actualDiff then
    submitPendingShare env key share hash s
  else if !exact then rejectPendingShare env key (retainShare share) .InvalidResult s
  else if actualDiff = 0 ∨ actualDiff < share.minerDiff then
    rejectPendingShare env key (retainShare share) .LowDifficulty s
  else if share.networkDiff ≤ share.minerDiff then
    rejectPendingShare env key (retainShare share) .LowDifficulty s
  else conclude (retainShare share) (.credited share hash) (reply env key share.shareId s)

/-- The completion after a successful computation of the hash. -/
def judgeShare (key : ℕ) (share : PendingShare) (hash : String) (s : System) : Completion :=
  let exact := RandomXVerifier.sameHash share.claimedHash hash
  if !exact && share.submission.globalShare.valid &&
      hasHeight s.cache share.templateSourceId share.height then
    let (identity, share, s) := reserveComputed share hash s
    match identity with
    | .accepted => decideShare env key share hash exact s
    | .duplicate => rejectPendingShare env key (retainShare share) .DuplicateShare s
    | .capacity | .invalid =>
        rejectPendingShare env key share .VerificationFailed
          (forgetSubmission key share.submission s)
  else decideShare env key share hash exact s

/-- Whether the miner still retains the issuance that the share answers, on the same mapper
and upstream client. -/
def stillRetained (now : ℕ) (share : PendingShare) (m : Miner.State) : Bool :=
  share.mapperId = m.mapperId && share.verificationGeneration = m.verificationGeneration &&
    (Miner.findTelemetryJob now share.jobId m).any fun job =>
      job.issuanceToken = share.issuanceToken

def completeVerification (options : RandomXVerifier.Options) (callback : Callback)
    (result : RandomXVerifier.Result) (s : System) : Completion :=
  match s.miners.find callback.key with
  | none => conclude callback.share .abandoned s
  | some m =>
      if m.stage = .closing then conclude callback.share .abandoned s
      else if !stillRetained s.now callback.share m then
        rejectPendingShare env callback.key (retainShare callback.share) .InvalidJobId s
      else if !result.ok then failVerification env options callback.key callback.share s
      else judgeShare env callback.key callback.share result.hash s

/-- Destroys the share of a callback and reports how its submission ended. -/
def finish (callback : Callback) (completion : Completion) : System × List Observation :=
  let r := callback.share.submission.globalShare
  let s := destroyShare completion.share completion.system
  (s, [.ended ⟨callback.key, callback.share.shareId,
    ofTemplate callback.share.templateSourceId callback.share.height, r, completion.verdict,
    completion.heldThen, held s.cache r⟩])

/-- One output of the verifier: a callback is called and destroyed, or only destroyed. -/
def settle (options : RandomXVerifier.Options) :
    RandomXVerifier.Output Callback → Handler System Observation
  | .called callback result, s =>
      finish callback (completeVerification env options callback result s)
  | .dropped callback, s => finish callback (conclude callback.share .abandoned s)
  | .sent _ _, s => (s, [])
  | .settled _ _ _ _ _, s => (s, [])
  | .disconnected, s => (s, [])

def runVerifier (options : RandomXVerifier.Options)
    (f : RandomXVerifier.State Callback → RandomXVerifier.Effect Callback) :
    Handler System Observation := fun s =>
  Handler.forEach (settle env options) (f s.verifier).2 { s with verifier := (f s.verifier).1 }

end Completion

section Submission

/-- The checks of `startVerification` before it builds a pending share. -/
def verifiable (job : Miner.TelemetryJob) : Bool :=
  job.algorithm = Algorithm.RX_0 && job.hashingBlob ≠ "" && job.seedHash.length = 64 &&
    job.nonceOffset * 2 + 8 ≤ job.hashingBlob.length

def pendingShare (request : JobResult) (job : Miner.TelemetryJob) (m : Miner.State)
    (submission : Miner.SubmissionReservation) (candidateFallback : Bool) : PendingShare where
  algorithm := job.algorithm
  mapperId := m.mapperId
  requestId := request.id
  extraNonce := request.extraNonce
  viewTag := request.viewTag
  shareId := request.shareId
  height := job.height
  minerDiff := job.minerDiff
  networkDiff := job.networkDiff
  issuanceToken := job.issuanceToken
  verificationGeneration := m.verificationGeneration
  templateGeneration := job.templateGeneration
  templateSourceId := job.templateSourceId
  candidateFallback := candidateFallback
  jobId := request.jobId.getD ""
  nonce := request.nonce.getD ""
  claimedHash := request.result.getD ""
  hashingBlob := String.ofList (Hex.patch job.hashingBlob.toList (job.nonceOffset * 2)
    ((request.nonce.getD "").toList.take 8))
  seedHash := job.seedHash
  signature := request.sig
  signatureData := request.sigData
  commitment := request.commitment
  entropy := job.entropy
  submission := submission

def verifyRequest (key : ℕ) (share : PendingShare) : RandomXVerifier.Request where
  owner := key
  shareId := share.shareId
  seedHash := share.seedHash
  blob := share.hashingBlob
  claimedHash := share.claimedHash
  jobId := share.jobId
  nonce := share.nonce
  priority := share.candidateFallback

/-- A refused share is destroyed with its callback, before the function returns. -/
def startVerification (options : RandomXVerifier.Options) (key : ℕ) (request : JobResult)
    (job : Miner.TelemetryJob) (m : Miner.State) (submission : Miner.SubmissionReservation)
    (candidateFallback : Bool) (s : System) : Bool × System :=
  if !verifiable job then (false, s)
  else
    let share := pendingShare request job m submission candidateFallback
    let (queued, verifier, _) := RandomXVerifier.verify options (verifierEnv env s)
      (verifyRequest key share) (some ⟨key, share⟩) s.verifier
    let s := { s with verifier := verifier }
    (queued, if queued then s else destroyShare share s)

/-- Reports the end of a submission whose share was not handed to the verifier. -/
def report (key : ℕ) (request : JobResult) (submission : Miner.SubmissionReservation)
    (verdict : Verdict) (atVerdict after : System) : System × List Observation :=
  (after, [.ended ⟨key, request.shareId, ofTemplate request.templateSourceId request.height,
    submission.globalShare, verdict, held atVerdict.cache submission.globalShare,
    held after.cache submission.globalShare⟩])

/-- The end of the submit branch: the event is dispatched unless an error was set. -/
def finishSubmission (key : ℕ) (request : JobResult)
    (submission : Miner.SubmissionReservation) (error : Error) : Handler System Observation :=
  fun s =>
    let final := if error = .NoError then (env.dispatch request).error else error
    if final = .NoError then report key request submission .submitted s s
    else
      let forgotten :=
        if isInfrastructureFailure final then forgetSubmission key submission s else s
      report key request submission (.refused final) forgotten
        (if final = .InvalidNonce then shutdown key forgotten
          else reply env key request.shareId forgotten)

/-- The error set after the verifier did not take a share, and the verifier afterwards. -/
def unverifiedError (options : RandomXVerifier.Options) (key : ℕ) (candidate : Bool)
    (s : System) : Error × System :=
  if !candidate then (.VerificationFailed, s)
  else
    let (granted, verifier) :=
      RandomXVerifier.allowEmergencyCandidate options (verifierEnv env s) key s.verifier
    (if granted then .NoError else .CandidateRateLimit, { s with verifier := verifier })

/-- An admitted share when a verifier is configured. A claimed candidate within its budget
goes upstream at once; every other share is verified. -/
def submitVerified (options : RandomXVerifier.Options) (key : ℕ) (request : JobResult)
    (job : Miner.TelemetryJob) (m : Miner.State) (submission : Miner.SubmissionReservation) :
    Handler System Observation := fun s =>
  let claimedCandidate := Miner.claimedCandidate request job
  let (allowed, s) : Bool × System :=
    if claimedCandidate then
      let r := RandomXVerifier.allowCandidate options (verifierEnv env s) key s.verifier
      (r.1, { s with verifier := r.2 })
    else (false, s)
  if claimedCandidate && allowed then finishSubmission env key request submission .NoError s
  else
    let (started, s) := startVerification env options key request job m
      submission claimedCandidate s
    if started then (s, [])
    else
      let (error, s) := unverifiedError env options key claimedCandidate s
      finishSubmission env key request submission error
        (if error = .NoError then s else forgetSubmission key submission s)

/-- An admitted share without a verifier: below the network difficulty it counts at once. -/
def submitUnverified (key : ℕ) (request : JobResult)
    (submission : Miner.SubmissionReservation) : Handler System Observation := fun s =>
  if request.minerDiff < request.networkDiff ∧ request.actualDiff < request.networkDiff then
    report key request submission .creditedUnverified s (reply env key request.shareId s)
  else finishSubmission env key request submission .NoError s

/-- The job that a submission names. -/
def namedJob (now : ℕ) (params : Json) (m : Miner.State) : Option Miner.TelemetryJob :=
  (params.text "job_id").bind fun jobId => Miner.findTelemetryJob now jobId m

/-- The submit branch of `parseRequest`. -/
def submit (key : ℕ) (id : ℤ) (params : Json) : Handler System Observation := fun s =>
  match s.miners.find key with
  | none => (s, [])
  | some m =>
      if m.stage ≠ .ready ∨ params.text "id" ≠ some m.rpcId then (s, [])
      else
        let job := namedJob s.now params m
        let request := Miner.submitRequest config.miner id (s.shareSequence + 1) params job m
        let (error, submission, m, cache) :=
          Miner.checkSubmission config.miner s.now params request job m s.cache
        let s := { s with
          miners := s.miners.insert key m
          shareSequence := s.shareSequence + 1
          cache := cache }
        let reserved : List Observation :=
          if error = .NoError ∧ submission.globalShare.valid then
            [.reserved key request.shareId submission.globalShare] else []
        let rest := match error, job, config.verifier with
          | .NoError, some job, some options =>
              submitVerified env options key request job m submission s
          | .NoError, _, none => submitUnverified env key request submission s
          | error, _, _ => finishSubmission env key request submission error s
        (rest.1, reserved ++ rest.2)

end Submission

section Runs

inductive Event where
  | advance (elapsed : ℕ)
  | connect (rpcId : String)
  | login (key : ℕ)
  | assign (key : ℕ) (mapperId : ℤ) (nicehash : Bool) (customDiff : ℕ) (fixedByte : UInt8)
  | setJob (key : ℕ) (job : Job) (extraNonce : ℤ) (issue : Miner.Issue)
  | forwardJob (key : ℕ) (job : Job) (issue : Miner.Issue)
  | clearTelemetryJobs (key : ℕ)
  | close (key : ℕ)
  | destroy (key : ℕ)
  | observeHeight (sourceId height : ℕ)
  | removeSource (sourceId : ℕ)
  | submit (key : ℕ) (id : ℤ) (params : Json)
  | startVerifier
  | stopVerifier
  | tick
  | onConnect (accepted : Bool)
  | frame (doc : Option Json)
  | closed (error : String)
  | prepareSeed (seedHash : String)

def updateMiner (key : ℕ) (f : Miner.State → Miner.Cache → Miner.State × Miner.Cache)
    (s : System) : System :=
  match s.miners.find key with
  | none => s
  | some m => { s with miners := s.miners.insert key (f m s.cache).1, cache := (f m s.cache).2 }

/-- One event of the verifier's connection or clock, as the event loop raises it. -/
def verifierEvent (options : RandomXVerifier.Options) (venv : RandomXVerifier.Env) :
    Event → RandomXVerifier.State Callback → RandomXVerifier.Effect Callback
  | .startVerifier, v => if v.stopping then (v, []) else (RandomXVerifier.start venv v, [])
  | .stopVerifier, v => RandomXVerifier.stop venv v
  | .tick, v => RandomXVerifier.tick options venv v
  | .onConnect accepted, v =>
      if v.pipe && !v.connected then RandomXVerifier.onConnect venv accepted v else (v, [])
  | .frame doc, v => if v.connected then RandomXVerifier.handleFrame venv doc v else (v, [])
  | .closed error, v => RandomXVerifier.disconnect venv error true v
  | .prepareSeed seedHash, v => RandomXVerifier.prepareSeed venv seedHash v
  | .destroy key, v => RandomXVerifier.cancelOwner key v
  | _, v => (v, [])

def withVerifier (event : Event) : Handler System Observation := fun s =>
  match config.verifier with
  | none => (s, [])
  | some options =>
      runVerifier env options (verifierEvent options (verifierEnv env s) event) s

def step (s : System) (e : Env × Event) : System × List Observation :=
  match e.2 with
  | .advance elapsed => ({ s with now := s.now + elapsed }, [])
  | .connect rpcId =>
      ({ s with
          miners := s.miners.insert s.nextKey { key := s.nextKey, rpcId := rpcId }
          nextKey := s.nextKey + 1 }, [])
  | .login key =>
      (updateMiner key (fun m cache =>
        (if m.stage = .waitLogin then { m with stage := .waitReady } else m, cache)) s, [])
  | .assign key mapperId nicehash customDiff fixedByte =>
      (updateMiner key (fun m cache =>
        ({ m with mapperId, nicehash, customDiff, fixedByte }, cache)) s, [])
  | .setJob key job extraNonce issue =>
      (updateMiner key (Miner.setJob s.now issue job extraNonce) s, [])
  | .forwardJob key job issue => (updateMiner key (Miner.forwardJob s.now issue job) s, [])
  | .clearTelemetryJobs key => (updateMiner key Miner.clearTelemetryJobs s, [])
  | .close key => (updateMiner key (fun m cache => ({ m with stage := .closing }, cache)) s, [])
  | .destroy key =>
      withVerifier config e.1 (.destroy key)
        { s with
          miners := s.miners.erase key
          cache := GlobalShareCache.removeOwner key s.cache }
  | .observeHeight sourceId height =>
      ({ s with cache := GlobalShareCache.observeHeight sourceId height s.cache }, [])
  | .removeSource sourceId =>
      ({ s with cache := GlobalShareCache.removeSource sourceId s.cache }, [])
  | .submit key id params => submit config e.1 key id params s
  | event => withVerifier config e.1 event s

def machine : Machine System (Env × Event) Observation := ⟨{}, step config⟩

end Runs

end XmrigProxy.ShareVerification
