import XmrigProxy.NonceMapper

/-! The extra-nonce mode: one upstream, and every miner works on a coinbase of its own. -/
namespace XmrigProxy

namespace ExtraNonceSplitter

open UpstreamMapper (Output)

structure State where
  connections : Table MinerId Connection := ∅
  nextId : ℕ := 0
  upstream : ExtraNonceMapper.State

variable (config : DonateStrategy.Config)

/-- A new upstream; its first donation round is due at a random tick. -/
def connect (target : ℕ) : ExtraNonceMapper.State × List Output :=
  UpstreamMapper.connect (ExtraNonceMapper.create config target)

/-- The upstream takes every miner; the fuel counts the rounds of the recursion. -/
def login (target : ℕ) (miner : MinerId) : ℕ → State → Option (State × List Output)
  | 0, _ => none
  | fuel + 1, s =>
      match UpstreamMapper.add ExtraNonceStorage.ops miner s.upstream with
      | some (upstream, out) =>
          some ({ s with
            upstream
            connections := s.connections.modify miner fun c => { c with mapperId := 0 } }, out)
      | none =>
          (login target miner fuel { s with upstream := (connect config target).1 }).map
            fun (s', out) => (s', (connect config target).2 ++ out)

/-- Applies a handler of the upstream. -/
def atUpstream (f : Handler ExtraNonceMapper.State Output) : Handler State Output := fun s =>
  ({ s with upstream := (f s.upstream).1 }, (f s.upstream).2)

def remove (miner : MinerId) (c : Connection) : Handler State Output :=
  if c.mapperId < 0 || c.routeId ≠ -1 then Handler.skip
  else atUpstream fun mapper => (UpstreamMapper.remove ExtraNonceStorage.ops miner mapper, [])

def submit (event : SubmitEvent) (answer : ℤ) (c : Connection) : Handler State Output :=
  if c.mapperId < 0 || c.routeId ≠ -1 then Handler.skip
  else atUpstream (UpstreamMapper.submit ExtraNonceStorage.ops event answer)

inductive Event where
  | downstream (event : DownstreamEvent)
  | pool (event : UpstreamMapper.PoolEvent)
  | gc
  | tick

/-- A connection logs in once, and is closed once. -/
def onDownstream (target : ℕ) : DownstreamEvent → Handler State Output
  | .connect => fun s =>
      ({ s with
          nextId := s.nextId + 1
          connections := s.connections.insert s.nextId.succPNat {} }, [])
  | .login miner donateTo => fun s =>
      match s.connections.find miner with
      | some c =>
          if c.loggedIn then (s, [])
          else match donateTo with
            | some id =>
                let c := { c with loggedIn := true, mapperId := id, routeId := 0 }
                ({ s with connections := s.connections.insert miner c }, [])
            | none =>
                let c := { c with loggedIn := true }
                let s := { s with connections := s.connections.insert miner c }
                (login config target miner 1 s).getD (s, [])
      | none => (s, [])
  | .submit miner request answer => fun s =>
      match s.connections.find miner with
      | some c => if c.loggedIn then submit ⟨miner, request, .NoError⟩ answer c s else (s, [])
      | none => (s, [])
  | .close miner => fun s =>
      match s.connections.find miner with
      | some c =>
          ({ (remove miner c s).1 with connections := s.connections.erase miner },
            (remove miner c s).2)
      | none => (s, [])

def step (target : ℕ) : Event → Handler State Output
  | .downstream event => onDownstream config target event
  | .pool event => atUpstream (UpstreamMapper.onPoolEvent ExtraNonceStorage.ops config event)
  | .gc => atUpstream ExtraNonceMapper.gc
  | .tick => atUpstream (UpstreamMapper.tick ExtraNonceStorage.ops config)

/-- The proxy connects its splitter before it listens. -/
def machine (target : ℕ) : Machine State Event Output where
  init := { upstream := (connect config target).1 }
  next s e := step config target e s

end ExtraNonceSplitter

end XmrigProxy
