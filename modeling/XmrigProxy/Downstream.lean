import Mathlib.Data.PNat.Basic
import XmrigProxy.Miner

/-! What splitters and mappers know of the connections: the ids that miners are numbered by,
the events that concern them, and the jobs written to them. -/
namespace XmrigProxy

/-- Miners are numbered from one, so zero can mark a free slot. -/
abbrev MinerId := ℕ+

/-- A job written to a miner, with the extra nonce that it mines with, if any. -/
structure JobWrite where
  miner : MinerId
  job : Job
  extraNonce : ℤ := -1
  deriving DecidableEq

structure SubmitEvent where
  miner : MinerId
  request : JobResult
  error : Error := .NoError

def SubmitEvent.setError (error : Error) (event : SubmitEvent) : SubmitEvent :=
  { event with error }

/-- What a splitter reads of a connected miner. A miner that the donation splitter has taken
has another route than `-1`. -/
structure Connection where
  loggedIn : Bool := false
  mapperId : ℤ := -1
  routeId : ℤ := -1
  deriving DecidableEq

/-- What the proxy asks of its splitter. A login carries what the donation splitter, which
sees it first, made of the miner. -/
inductive DownstreamEvent where
  | connect
  | login (miner : MinerId) (donateTo : Option ℕ)
  | submit (miner : MinerId) (request : JobResult) (answer : ℤ)
  | close (miner : MinerId)

end XmrigProxy
