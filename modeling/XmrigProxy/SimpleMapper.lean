import XmrigProxy.Downstream
import XmrigProxy.Library.Machine

/-! One upstream for one miner. The mapper keeps the current job and five previous ones, may
outlive its miner, and may be handed to another one. A strategy is known by its number. -/
namespace XmrigProxy.SimpleMapper

structure JobEntry where
  job : Job := Job.initial
  strategy : Option ℕ := none
  issuedAt : ℕ := 0
  deriving DecidableEq

def kJobHistorySize : ℕ := 5
def kJobHistoryMs : ℕ := 120000

structure State where
  id : ℕ
  active : Bool := false
  dirty : Bool := false
  strategy : ℕ := 0
  pending : Option ℕ := none
  strategySequence : ℕ := 0
  currentJob : JobEntry := {}
  jobHistory : List JobEntry := []
  miner : Option MinerId := none
  idleTime : ℕ := 0
  deriving DecidableEq

inductive Output where
  | connect (strategy : ℕ)
  | stop (strategy : ℕ)
  | setJob (write : JobWrite)
  | clearTelemetryJobs (miner : MinerId)
  /-- The answer of the strategy's client: a sequence id, or a refusal. -/
  | submitted (strategy : ℕ) (miner : MinerId) (request : JobResult) (answer : ℤ)
  | finished (event : SubmitEvent)
  | accept (mapperId : ℕ) (seq : ℤ) (miner : Option MinerId) (error : Option String)
  | reply (miner : MinerId) (requestId : ℤ) (error : Option String)
  | outcome (miner : MinerId) (accepted : Bool)

def isActive (s : State) : Bool := s.active && s.miner.isSome

/-- A job with template entropy is private to the miner that it was made for. -/
def isReusable (s : State) : Bool :=
  s.active && s.miner.isNone && !s.dirty && s.currentJob.job.templateEntropy = ""

def add (miner : MinerId) : Handler State Output := fun s =>
  ({ s with miner := some miner }, [.connect s.strategy])

def remove (s : State) : State := { s with miner := none, dirty := true }

def reuse (miner : MinerId) : Handler State Output := fun s =>
  ({ s with idleTime := 0, miner := some miner },
    if s.currentJob.job.isValid then [.setJob { miner, job := s.currentJob.job }] else [])

def stop : Handler State Output := fun s =>
  (s, .stop s.strategy :: s.pending.toList.map .stop)

def reload : Handler State Output := fun s =>
  ({ s with pending := some (s.strategySequence + 1), strategySequence := s.strategySequence + 1 },
    [.connect (s.strategySequence + 1)])

/-- The current job does not expire; a previous one does. -/
def findJob (now : ℕ) (id : Option String) (s : State) : Option JobEntry :=
  if id = some s.currentJob.job.id && s.currentJob.strategy.isSome then some s.currentJob
  else s.jobHistory.find? fun entry =>
    entry.job.isValid && id = some entry.job.id && entry.strategy.isSome &&
      now < entry.issuedAt + kJobHistoryMs

/-- The checks of a submission: the strategy that it goes to, and the request. -/
def checkSubmit (now : ℕ) (event : SubmitEvent) (s : State) : Except Error (ℕ × JobResult) :=
  if !isActive s then .error .BadGateway
  else match findJob now event.request.jobId s with
    | some ⟨job, some strategy, _⟩ =>
        if event.request.algorithm.isValid && event.request.algorithm ≠ job.algorithm then
          .error .IncorrectAlgorithm
        else .ok (strategy, { event.request with diff := job.diff })
    | _ => .error .InvalidJobId

/-- `answer` is what the client of the job's strategy returns. -/
def submit (now : ℕ) (event : SubmitEvent) (answer : ℤ) : Handler State Output := fun s =>
  match checkSubmit now event s with
  | .error error => (s, [.finished (event.setError error)])
  | .ok (strategy, request) =>
      (s, [.submitted strategy event.miner request answer,
        .finished (if answer < 0 then event.setError .BadGateway else event)])

def tick (s : State) : State :=
  if s.miner.isNone then { s with idleTime := s.idleTime + 1 } else s

/-- A pending strategy that becomes active replaces the old one and its jobs. -/
def onActive (strategy : ℕ) : Handler State Output := fun s =>
  let s := { s with active := true }
  if s.pending = some strategy then
    ({ s with currentJob := {}, jobHistory := [], strategy, pending := none },
      s.miner.toList.map .clearTelemetryJobs)
  else (s, [])

def onPause (strategy : ℕ) (s : State) : State :=
  if s.strategy = strategy then { s with active := false } else s

/-- Whether the previous jobs stay valid next to this one. -/
def continues (job : Job) (strategy : ℕ) (s : State) : Bool :=
  s.currentJob.job.isValid && s.currentJob.strategy = some strategy &&
    s.currentJob.job.clientId = job.clientId

def setJob (now : ℕ) (job : Job) (strategy : ℕ) : Handler State Output := fun s =>
  let entry : JobEntry := ⟨job, some strategy, now⟩
  let writes := s.miner.toList.map fun miner => .setJob { miner, job }
  if continues job strategy s then
    ({ s with
        jobHistory := (s.currentJob :: s.jobHistory).take kJobHistorySize
        currentJob := entry
        dirty := false }, writes)
  else
    ({ s with jobHistory := [], currentJob := entry, dirty := false },
      s.miner.toList.map .clearTelemetryJobs ++ writes)

/-- `ambiguous` results are not held against the miner. -/
def onResultAccepted (seq requestId : ℤ) (ambiguous : Bool) (error : Option String) :
    Handler State Output := fun s =>
  (s, .accept s.id seq s.miner error ::
    match s.miner with
    | none => []
    | some miner =>
        .reply miner requestId error ::
          if ambiguous then [] else [.outcome miner error.isNone])

/-- What the strategies of the mapper report. -/
inductive PoolEvent where
  | active (strategy : ℕ)
  | pause (strategy : ℕ)
  | job (strategy : ℕ) (job : Job)
  | result (seq requestId : ℤ) (ambiguous : Bool) (error : Option String)

def onPoolEvent (now : ℕ) : PoolEvent → Handler State Output
  | .active strategy => onActive strategy
  | .pause strategy => fun s => (onPause strategy s, [])
  | .job strategy job => setJob now job strategy
  | .result seq requestId ambiguous error => onResultAccepted seq requestId ambiguous error

end XmrigProxy.SimpleMapper
