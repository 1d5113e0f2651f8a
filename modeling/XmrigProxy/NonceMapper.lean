import XmrigProxy.DonateStrategy
import XmrigProxy.ExtraNonceStorage
import XmrigProxy.Library.Table

/-! One upstream shared by many miners. The mappers of the nicehash and the extra-nonce mode
differ in how they store miners and in when they are suspended; everything else is one text
over the operations of a storage. -/
namespace XmrigProxy

/-- What a mapper asks of the storage of its miners. -/
structure MinerStorage (σ : Type) where
  isActive : σ → Bool
  job : σ → Job
  isValidJobId : Option String → σ → Bool × Bool
  miner : MinerId → σ → Option MinerId
  add : MinerId → σ → Option (σ × List JobWrite)
  remove : MinerId → σ → σ
  reset : σ → σ
  setActive : Bool → σ → σ
  setJob : Job → σ → σ × List JobWrite
  isActive_setActive : ∀ active s, isActive (setActive active s) = active
  isActive_add : ∀ m s s' w, add m s = some (s', w) → isActive s' = isActive s
  isActive_remove : ∀ m s, isActive (remove m s) = isActive s
  isActive_reset : ∀ s, isActive (reset s) = isActive s
  isActive_setJob : ∀ job s, isActive (setJob job s).1 = isActive s
  miner_eq : ∀ id s m, miner id s = some m → m = id
  /-- A miner that joins an active storage is sent the current job. -/
  greeted : ∀ m s s' w, add m s = some (s', w) → isActive s = true →
    ∃ write ∈ w, write.miner = m ∧ write.job = job s

namespace NonceStorage

def ops : MinerStorage State where
  isActive := State.active
  job := State.job
  isValidJobId := isValidJobId
  miner := miner
  add := add
  remove := remove
  reset := reset
  setActive := setActive
  setJob := setJob
  isActive_setActive _ _ := rfl
  isActive_add m s s' w h := by
    obtain ⟨index, -, heq⟩ := Option.map_eq_some_iff.mp h
    cases heq
    rfl
  isActive_remove _ _ := rfl
  isActive_reset _ := rfl
  isActive_setJob _ _ := rfl
  miner_eq id s m h := by
    unfold miner at h
    split at h
    · exact (Option.some.inj h).symm
    · cases h
  greeted m s s' w h hactive := by
    obtain ⟨index, -, heq⟩ := Option.map_eq_some_iff.mp h
    cases heq
    exact ⟨{ miner := m, job := s.job }, by simp [hactive], rfl, rfl⟩

end NonceStorage

namespace ExtraNonceStorage

def ops : MinerStorage State where
  isActive := State.active
  job := State.job
  isValidJobId := isValidJobId
  miner := miner
  add := fun m s => some (add m s)
  remove := remove
  reset := reset
  setActive := setActive
  setJob := setJob
  isActive_setActive _ _ := rfl
  isActive_add m s s' w h := by
    obtain rfl := congrArg Prod.fst (Option.some.inj h)
    unfold add
    dsimp only
    split <;> rfl
  isActive_remove _ _ := rfl
  isActive_reset _ := rfl
  isActive_setJob _ _ := rfl
  miner_eq id s m h := by
    unfold miner at h
    split at h
    · exact (Option.some.inj h).symm
    · cases h
  greeted m s s' w h hactive := by
    obtain rfl := congrArg Prod.snd (Option.some.inj h)
    exact ⟨{ miner := m, job := s.job, extraNonce := s.extraNonce }, by
      simp [add, hactive], rfl, rfl⟩

end ExtraNonceStorage

namespace UpstreamMapper

structure SubmitCtx where
  id : ℤ
  minerId : MinerId
  deriving DecidableEq

/-- `poolActive` is the main strategy's own state: it has reported an active pool, and no
pause since. -/
structure State (σ : Type) where
  id : ℕ
  suspended : ℕ := 0
  poolActive : Bool := false
  storage : σ
  donate : Option DonateStrategy.State := none
  results : Table ℤ SubmitCtx := ∅

inductive Output where
  | write (write : JobWrite)
  | connect
  | stop
  | donate (output : DonateStrategy.Output)
  /-- The answer of the strategy's client: a sequence id, or `-1`. -/
  | submitted (toDonate : Bool) (miner : MinerId) (request : JobResult) (seq : ℤ)
  | finished (event : SubmitEvent)
  | accept (mapperId : ℕ) (seq : ℤ) (miner : Option MinerId) (donate : Bool) (error : Option String)
  | reply (miner : MinerId) (requestId : ℤ) (error : Option String)

variable {σ : Type} (ops : MinerStorage σ)

def isSuspended (s : State σ) : Bool := 0 < s.suspended

def isActive (s : State σ) : Bool := ops.isActive s.storage && !isSuspended s

def donating (s : State σ) : Bool := s.donate.any DonateStrategy.State.active

def connect : Handler (State σ) Output := fun s => ({ s with suspended := 0 }, [.connect])

/-- Refused when the storage has no room. -/
def add (miner : MinerId) (s : State σ) : Option (State σ × List Output) :=
  (ops.add miner s.storage).map fun (storage, writes) =>
    Handler.seq (fun s => (s, writes.map .write)) (if isSuspended s then connect else Handler.skip)
      { s with storage }

def remove (miner : MinerId) (s : State σ) : State σ :=
  { s with storage := ops.remove miner s.storage }

/-- The checks of a submission, and the request that goes upstream. -/
def checkSubmit (event : SubmitEvent) (s : State σ) : Except Error JobResult :=
  if !ops.isActive s.storage then .error .BadGateway
  else if !(ops.isValidJobId event.request.jobId s.storage).1 then .error .InvalidJobId
  else if event.request.algorithm.isValid &&
      event.request.algorithm ≠ (ops.job s.storage).algorithm then .error .IncorrectAlgorithm
  else .ok { event.request with diff := (ops.job s.storage).diff }

/-- `answer` is what the client of the chosen strategy returns. -/
def submit (event : SubmitEvent) (answer : ℤ) : Handler (State σ) Output := fun s =>
  match checkSubmit ops event s with
  | .error error => (s, [.finished (event.setError error)])
  | .ok request =>
      ({ s with results := s.results.insert answer ⟨request.id, event.miner⟩ },
        [.submitted (donating s) event.miner request answer, .finished event])

def setJob (job : Job) : Handler (State σ) Output := fun s =>
  ({ s with storage := (ops.setJob job s.storage).1 }, (ops.setJob job s.storage).2.map .write)

variable (config : DonateStrategy.Config)

/-- Ends the donation round if it is due. -/
def reschedule (s : State σ) : Bool × State σ × List Output :=
  match s.donate with
  | none => (false, s, [])
  | some donate =>
      let (due, donate, out) := DonateStrategy.reschedule config donate
      (due, { s with donate := some donate }, out.map .donate)

def tickDonate : Handler (State σ) Output := fun s =>
  match s.donate with
  | none => (s, [])
  | some donate =>
      ({ s with donate := some (DonateStrategy.tick donate).1 },
        (DonateStrategy.tick donate).2.map .donate)

/-- A round that is over hands the saved job back. -/
def resumeSaved : Handler (State σ) Output := fun s =>
  match s.donate with
  | none => (s, [])
  | some donate =>
      if donate.active && DonateStrategy.hasPendingJob donate then
        let (due, s, out) := reschedule config s
        if due then
          ((setJob ops donate.pending s).1, out ++ (setJob ops donate.pending s).2)
        else (s, out)
      else (s, [])

def tick : Handler (State σ) Output := Handler.seq tickDonate (resumeSaved ops config)

/-- The main strategy has an active pool. -/
def onActive (s : State σ) : State σ :=
  { s with storage := ops.setActive true s.storage, poolActive := true }

/-- The main strategy has none. -/
def onPause (s : State σ) : State σ :=
  { s with storage := ops.setActive false s.storage, poolActive := false }

def setAlgo (algorithm : Algorithm) (s : State σ) : State σ :=
  { s with donate := s.donate.map (DonateStrategy.setAlgo algorithm) }

def onJob (job : Job) : Handler (State σ) Output := fun s =>
  if donating s then
    let (due, s, out) := reschedule config s
    if due then
      ((setJob ops job (setAlgo job.algorithm s)).1,
        out ++ (setJob ops job (setAlgo job.algorithm s)).2)
    else ({ s with donate := s.donate.map (DonateStrategy.save job) }, out)
  else setJob ops job (setAlgo job.algorithm s)

/-- A job of the donation client starts the round, or continues it. -/
def onDonateJob (job : Job) : Handler (State σ) Output := fun s =>
  match s.donate with
  | none => (s, [])
  | some donate =>
      let s := if donate.active then s else
        { s with
          donate := some { donate with active := true }
          storage := ops.setActive true s.storage }
      setJob ops job (setAlgo job.algorithm s)

/-- The donation client is closed; its strategy reports a pause if a round was running. -/
def onDonateClose (s : State σ) : State σ :=
  match s.donate with
  | none => s
  | some donate =>
      if donate.active then
        { s with
          donate := some { donate with active := false }
          storage := ops.setActive false s.storage }
      else s

def submitCtx (seq : ℤ) (s : State σ) : (ℤ × Option MinerId) × State σ :=
  match s.results.find seq with
  | none => ((0, none), s)
  | some ctx => ((ctx.id, ops.miner ctx.minerId s.storage),
      { s with results := s.results.erase seq })

def onResultAccepted (toDonate : Bool) (seq : ℤ) (error : Option String) :
    Handler (State σ) Output := fun s =>
  let ((id, miner), s) := submitCtx ops seq s
  (s, .accept s.id seq miner toDonate error ::
    match miner with
    | none => []
    | some miner => [.reply miner id error])

/-- Stopping the strategy pauses it at once, or when its client has closed. -/
def suspend (paused : Bool) : Handler (State σ) Output := fun s =>
  let s := { s with
    suspended := 1
    storage := ops.reset (ops.setActive false s.storage) }
  let s := if paused then onPause ops s else s
  match s.donate with
  | none => (s, [.stop])
  | some donate =>
      ({ s with donate := some (DonateStrategy.stop donate).1 },
        .stop :: (DonateStrategy.stop donate).2.map .donate)

/-- What the main strategy and the donation client report. -/
inductive PoolEvent where
  | active
  | pause
  | job (job : Job)
  | donateJob (job : Job)
  | donateClose
  | result (toDonate : Bool) (seq : ℤ) (error : Option String)

def onPoolEvent : PoolEvent → Handler (State σ) Output
  | .active => fun s => (onActive ops s, [])
  | .pause => fun s => (onPause ops s, [])
  | .job job => onJob ops config job
  | .donateJob job => onDonateJob ops job
  | .donateClose => fun s => (onDonateClose ops s, [])
  | .result toDonate seq error => onResultAccepted ops toDonate seq error

end UpstreamMapper

namespace NonceMapper

open UpstreamMapper

abbrev State := UpstreamMapper.State NonceStorage.State

def gc (paused : Bool) : Handler State Output := fun s =>
  if isSuspended s then ({ s with suspended := s.suspended + 1 }, [])
  else if s.id = 0 || NonceStorage.isUsed s.storage then (s, [])
  else suspend NonceStorage.ops paused s

/-- A new mapper; the first donation round is due at a random tick. -/
def create (config : DonateStrategy.Config) (id : ℕ) (index : Slot) (target : ℕ) : State where
  id := id
  storage := NonceStorage.create index
  donate := if 0 < config.donateLevel then some { target } else none

end NonceMapper

namespace ExtraNonceMapper

open UpstreamMapper

abbrev State := UpstreamMapper.State ExtraNonceStorage.State

def gc : Handler State Output := fun s =>
  if isSuspended s then ({ s with suspended := s.suspended + 1 }, []) else (s, [])

def create (config : DonateStrategy.Config) (target : ℕ) : State where
  id := 0
  storage := {}
  donate := if 0 < config.donateLevel then some { target } else none

end ExtraNonceMapper

end XmrigProxy
