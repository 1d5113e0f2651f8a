import XmrigProxy.Job
import XmrigProxy.Library.Machine

/-! The donation rounds of one upstream: a second client that takes over the miners for some
ticks. The job of the main pool that arrives meanwhile is saved. -/
namespace XmrigProxy.DonateStrategy

/-- The next round starts `interval` ticks after one that lasted so many ticks; the source
computes it in floating point. -/
structure Config where
  donateLevel : ℕ
  interval : ℕ → ℕ

structure State where
  active : Bool := false
  algo : Algorithm := Algorithm.INVALID
  pending : Job := Job.initial
  donateTicks : ℕ := 0
  target : ℕ := 0
  ticks : ℕ := 0

/-- What the client of the rounds is told. -/
inductive Output where
  | connect
  | disconnect
  deriving DecidableEq

def stop (s : State) : State × List Output := ({ s with donateTicks := 0 }, [.disconnect])

def hasPendingJob (s : State) : Bool := s.pending.isValid

def save (job : Job) (s : State) : State := { s with pending := job }

def setAlgo (algorithm : Algorithm) (s : State) : State := { s with algo := algorithm }

/-- Ends the round once it has lasted long enough. -/
def reschedule (config : Config) (s : State) : Bool × State × List Output :=
  if s.donateTicks < config.donateLevel * 60 then (false, s, [])
  else (true, stop { s with
    target := s.ticks + config.interval s.donateTicks
    active := false })

def tick (s : State) : State × List Output :=
  let s := { s with ticks := s.ticks + 1 }
  let starts := s.ticks = s.target
  let s := if starts then { s with pending := s.pending.reset } else s
  (if s.active then { s with donateTicks := s.donateTicks + 1 } else s,
    if starts then [.connect] else [])

end XmrigProxy.DonateStrategy
