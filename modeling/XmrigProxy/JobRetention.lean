import XmrigProxy.PoolStrategy
import XmrigProxy.SimpleMapper
import XmrigProxy.Library.Table

/-! The jobs that one miner of the simple mode may still be working on, over daemon pools. The
miner, its mapper and the daemon client each keep a list of their own, dated by a clock that
they read one after the other. -/
namespace XmrigProxy.JobRetention

structure State where
  clock : ℕ := 0
  miner : Miner.State
  cache : Miner.Cache := {}
  mapper : SimpleMapper.State
  strategies : Table ℕ PoolStrategy.State

inductive Output where
  /-- The mapper holds a new job. `created` dates its context at the daemon client. -/
  | recorded (jobId : String) (created : ℕ)
  | cleared
  /-- An open connection did not take a job. -/
  | refused
  deriving DecidableEq

/-- The time from one reading of the clock to the next, on the way of a job. -/
structure Delays where
  created : ℕ := 0
  trimmed : ℕ := 0
  recorded : ℕ := 0
  written : ℕ := 0

/-- What a mapper asks of its miner. -/
def perform (now created : ℕ) (issue : Miner.Issue) : SimpleMapper.Output → Handler State Output
  | .clearTelemetryJobs _ => fun s =>
      let (miner, cache) := Miner.clearTelemetryJobs s.miner s.cache
      ({ s with miner, cache }, [.cleared])
  | .setJob write => fun s =>
      let closing := decide (s.miner.stage = .closing)
      let (miner, cache) := Miner.setJob now { issue with written := issue.written && !closing }
        write.job write.extraNonce s.miner s.cache
      ({ s with miner, cache },
        .recorded write.job.id created :: if issue.written || closing then [] else [.refused])
  | _ => Handler.skip

def atMapper (now created : ℕ) (issue : Miner.Issue)
    (f : Handler SimpleMapper.State SimpleMapper.Output) : Handler State Output := fun s =>
  Handler.forEach (perform now created issue) (f s.mapper).2 { s with mapper := (f s.mapper).1 }

/-- A strategy that the mapper has given up is gone. -/
def strategy (number : ℕ) (s : State) : Option PoolStrategy.State :=
  if number = s.mapper.strategy ∨ s.mapper.pending = some number then s.strategies.find number
  else none

/-- A client of a strategy derives a job, which the strategy may pass on. -/
def onTemplate (number client : ℕ) (job : Job) (context : DaemonClient.JobContext)
    (issue : Miner.Issue) (delays : Delays) : Handler State Output := fun s =>
  match strategy number s with
  | none => (s, [])
  | some pools =>
      let created := s.clock + delays.created
      let trimmed := created + delays.trimmed
      let recorded := trimmed + delays.recorded
      let written := recorded + delays.written
      let result := PoolStrategy.installTemplate trimmed client
        { context with
          jobId := job.id
          createdSteadyMs := created } pools
      let s := { s with
        clock := written
        strategies := s.strategies.insert number result.strategy }
      let job := { job with clientId := toString client }
      Handler.seq
        (if result.activated then atMapper written created issue (SimpleMapper.onActive number)
          else Handler.skip)
        (if result.delivered then
            atMapper written created issue (SimpleMapper.setJob recorded job number)
          else Handler.skip) s

/-- A connection attempt fails at once, when the pool is not usable as configured. -/
def onConnectFailed (number client failures : ℕ) (s : State) : State :=
  match strategy number s with
  | none => s
  | some pools =>
      if (pools.clients[client]?).map DaemonClient.State.state = some .connecting then
        let (pools, paused) := PoolStrategy.onClose client failures pools
        { s with
          strategies := s.strategies.insert number pools
          mapper := if paused then SimpleMapper.onPause number s.mapper else s.mapper }
      else s

def reload (pools retries : ℕ) (s : State) : State :=
  let mapper := (SimpleMapper.reload s.mapper).1
  { s with
    mapper
    strategies := s.strategies.insert mapper.strategySequence
      (PoolStrategy.connect (PoolStrategy.createStrategy pools retries)) }

/-- The readings of the clock by the miner, the mapper and the daemon client, for one
submission. -/
structure Readings where
  found : ℕ := 0
  resolved : ℕ := 0
  trimmed : ℕ := 0

def Readings.miner (r : Readings) (clock : ℕ) : ℕ := clock + r.found
def Readings.mapper (r : Readings) (clock : ℕ) : ℕ := r.miner clock + r.resolved
def Readings.client (r : Readings) (clock : ℕ) : ℕ := r.mapper clock + r.trimmed

/-- A submission that no other check has stopped reaches the mapper and its daemon client. -/
def submit (event : SubmitEvent) (readings : Readings) (s : State) : State :=
  let s' := { s with clock := readings.client s.clock }
  match SimpleMapper.checkSubmit (readings.mapper s.clock) event s.mapper with
  | .error _ => s'
  | .ok (number, _) =>
      match s.strategies.find number with
      | none => s'
      | some pools =>
          { s' with
            strategies := s.strategies.insert number
              (PoolStrategy.trimContexts (readings.client s.clock) pools) }

inductive Event where
  | template (strategy client : ℕ) (job : Job) (context : DaemonClient.JobContext)
      (issue : Miner.Issue) (delays : Delays)
  | connectFailed (strategy client failures : ℕ)
  | reload (pools retries : ℕ)
  | submit (event : SubmitEvent) (readings : Readings)
  | shutdown
  | close

def closing (s : State) : State := { s with miner := { s.miner with stage := .closing } }

def step : Event → Handler State Output
  | .template strategy client job context issue delays =>
      onTemplate strategy client job context issue delays
  | .connectFailed strategy client failures => fun s =>
      (onConnectFailed strategy client failures s, [])
  | .reload pools retries => fun s => (reload pools retries s, [])
  | .submit event readings => fun s => (submit event readings s, [])
  | .shutdown => fun s => (closing s, [])
  | .close => fun s => (closing { s with mapper := SimpleMapper.remove s.mapper }, [])

/-- A miner has logged in, and a new mapper has taken it. A job with template entropy keeps the
mapper from being handed to another miner. -/
def machine (pools retries : ℕ) (miner : MinerId) (rpcId : String) (customDiff : ℕ) :
    Machine State Event Output where
  init :=
    { miner := { key := miner, rpcId, customDiff, mapperId := 0, stage := .waitReady }
      mapper := (SimpleMapper.add miner { id := 0 }).1
      strategies := (∅ : Table ℕ PoolStrategy.State).insert 0
        (PoolStrategy.connect (PoolStrategy.createStrategy pools retries)) }
  next s e := step e s

section Submissions

/-- The miner honours the job: it is found, unexpired and not stale. -/
def admits (jobId : String) (readings : Readings) (s : State) : Bool :=
  decide (s.miner.stage = .ready) &&
    (Miner.findTelemetryJob (readings.miner s.clock) jobId s.miner).any fun job =>
      !Miner.isStale job.height s.miner.jobHeight

/-- The mapper finds the job, and the client of its strategy the context. -/
def resolves (jobId : String) (readings : Readings) (s : State) : Bool :=
  match SimpleMapper.findJob (readings.mapper s.clock) (some jobId) s.mapper with
  | some ⟨_, some number, _⟩ =>
      ((s.strategies.find number).bind PoolStrategy.submitClient).any fun client =>
        (DaemonClient.findContext jobId
          (DaemonClient.trimContexts (readings.client s.clock) client.contexts)).isSome
  | _ => false

end Submissions

end XmrigProxy.JobRetention
