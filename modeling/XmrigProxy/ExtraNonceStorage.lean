import Mathlib.Data.Finset.Sort
import XmrigProxy.NonceStorage

/-! The miners of the one upstream in extra-nonce mode, numbered anew with every job. -/
namespace XmrigProxy.ExtraNonceStorage

structure State where
  active : Bool := false
  job : Job := Job.initial
  prevJob : Job := Job.initial
  miners : Finset MinerId := ∅
  extraNonce : ℤ := 0

def add (miner : MinerId) (s : State) : State × List JobWrite :=
  let s := { s with miners := insert miner s.miners }
  if s.active then
    ({ s with extraNonce := s.extraNonce + 1 },
      [{ miner, job := s.job, extraNonce := s.extraNonce }])
  else (s, [])

/-- The second component counts the share as expired. -/
def isValidJobId (id : Option String) (s : State) : Bool × Bool :=
  if id = some s.job.id then (true, false)
  else if s.prevJob.isValid && id = some s.prevJob.id then (true, true)
  else (false, false)

def miner (id : MinerId) (s : State) : Option MinerId :=
  if id ∈ s.miners then some id else none

def remove (miner : MinerId) (s : State) : State :=
  { s with miners := s.miners.erase miner }

def reset (s : State) : State := s

def setActive (active : Bool) (s : State) : State := { s with active }

def setJob (job : Job) (s : State) : State × List JobWrite :=
  let s := { s with
    prevJob := if s.job.clientId = job.clientId then s.job else s.prevJob.reset
    job
    extraNonce := s.miners.card }
  (s, (s.miners.sort (· ≤ ·)).mapIdx fun i miner => { miner, job := s.job, extraNonce := i })

end XmrigProxy.ExtraNonceStorage
