import XmrigProxy.NonceMapper

/-! The mappers of the nicehash mode. Miners keep the index of their mapper; the vector of
mappers grows when none has room and shrinks from its end. -/
namespace XmrigProxy

namespace NonceSplitter

structure State where
  connections : Table MinerId Connection := ∅
  nextId : ℕ := 0
  upstreams : List NonceMapper.State := []

/-- The random choices of a new mapper: its first slot, and its first donation round. -/
structure Fresh where
  index : Slot
  target : ℕ

abbrev Output := ℕ × UpstreamMapper.Output

variable (config : DonateStrategy.Config) (fresh : Fresh)

def connect : Handler State Output := fun s =>
  let id := s.upstreams.length
  let (upstream, out) := UpstreamMapper.connect
    (NonceMapper.create config id fresh.index fresh.target)
  ({ s with upstreams := s.upstreams ++ [upstream] }, out.map (id, ·))

/-- The first of the chosen mappers that has room takes the miner. -/
def tryAdd (choose : NonceMapper.State → Bool) (miner : MinerId) :
    List NonceMapper.State → Option (ℕ × List NonceMapper.State × List Output)
  | [] => none
  | mapper :: rest =>
      match if choose mapper then UpstreamMapper.add NonceStorage.ops miner mapper else none with
      | some (mapper, out) => some (mapper.id, mapper :: rest, out.map (mapper.id, ·))
      | none => (tryAdd choose miner rest).map fun (id, rest, out) => (id, mapper :: rest, out)

/-- The miner is told the id of the mapper that took it. -/
def assign (miner : MinerId) (taken : ℕ × List NonceMapper.State × List Output) (s : State) :
    State × List Output :=
  ({ s with
      upstreams := taken.2.1
      connections := s.connections.modify miner fun c => { c with mapperId := taken.1 } },
    taken.2.2)

/-- Active upstreams first, then suspended ones, then a new one. The fuel counts the rounds
of the recursion. -/
def login (miner : MinerId) : ℕ → State → Option (State × List Output)
  | 0, _ => none
  | fuel + 1, s =>
      match tryAdd (fun mapper => !UpstreamMapper.isSuspended mapper) miner s.upstreams with
      | some taken => some (assign miner taken s)
      | none =>
          match tryAdd UpstreamMapper.isSuspended miner s.upstreams with
          | some taken => some (assign miner taken s)
          | none =>
              (login miner fuel (connect config fresh s).1).map fun (s', out) =>
                (s', (connect config fresh s).2 ++ out)

/-- Applies a handler of one mapper. -/
def atMapper (id : ℕ) (f : Handler NonceMapper.State UpstreamMapper.Output) :
    Handler State Output := fun s =>
  match s.upstreams[id]? with
  | none => (s, [])
  | some mapper =>
      ({ s with upstreams := s.upstreams.set id (f mapper).1 }, (f mapper).2.map (id, ·))

def remove (miner : MinerId) (c : Connection) : Handler State Output :=
  if c.mapperId < 0 || c.routeId ≠ -1 then Handler.skip
  else atMapper c.mapperId.toNat fun mapper =>
    (UpstreamMapper.remove NonceStorage.ops miner mapper, [])

def submit (event : SubmitEvent) (answer : ℤ) (c : Connection) : Handler State Output :=
  if c.mapperId < 0 || c.routeId ≠ -1 then Handler.skip
  else atMapper c.mapperId.toNat (UpstreamMapper.submit NonceStorage.ops event answer)

/-- Deletes mappers from the end while the last one has been suspended for a while; without
mappers there is no last one. -/
def collect : ℕ → List NonceMapper.State → Option (List NonceMapper.State)
  | 0, _ => none
  | fuel + 1, upstreams =>
      match upstreams.getLast? with
      | none => none
      | some mapper =>
          if 2 ≤ mapper.suspended then collect fuel upstreams.dropLast else some upstreams

/-- `paused` tells which stopped strategies pause at once. -/
def gcMappers (paused : ℕ → Bool) (upstreams : List NonceMapper.State) :
    List (NonceMapper.State × List UpstreamMapper.Output) :=
  upstreams.map fun mapper => NonceMapper.gc (paused mapper.id) mapper

def gc (paused : ℕ → Bool) (s : State) : Option (State × List Output) :=
  (collect (s.upstreams.length + 1) ((gcMappers paused s.upstreams).map Prod.fst)).map
    fun upstreams => ({ s with upstreams },
      (gcMappers paused s.upstreams).flatMap fun m => m.2.map (m.1.id, ·))

def tick : Handler State Output := fun s =>
  let ticked := s.upstreams.map (UpstreamMapper.tick NonceStorage.ops config)
  ({ s with upstreams := ticked.map Prod.fst },
    ticked.flatMap fun m => m.2.map (m.1.id, ·))

inductive Event where
  | downstream (event : DownstreamEvent) (fresh : Fresh)
  | pool (id : ℕ) (event : UpstreamMapper.PoolEvent)
  | gc (paused : ℕ → Bool)
  | tick

/-- A connection logs in once, and is closed once. -/
def onDownstream : DownstreamEvent → Handler State Output
  | .connect => fun s =>
      ({ s with
          nextId := s.nextId + 1
          connections := s.connections.insert s.nextId.succPNat {} }, [])
  | .login miner donateTo => fun s =>
      match s.connections.find miner with
      | some c =>
          if c.loggedIn then (s, [])
          else match donateTo with
            | some id =>
                let c := { c with loggedIn := true, mapperId := id, routeId := 0 }
                ({ s with connections := s.connections.insert miner c }, [])
            | none =>
                let c := { c with loggedIn := true }
                let s := { s with connections := s.connections.insert miner c }
                (login config fresh miner 2 s).getD (s, [])
      | none => (s, [])
  | .submit miner request answer => fun s =>
      match s.connections.find miner with
      | some c => if c.loggedIn then submit ⟨miner, request, .NoError⟩ answer c s else (s, [])
      | none => (s, [])
  | .close miner => fun s =>
      match s.connections.find miner with
      | some c =>
          let (s, out) := remove miner c s
          ({ s with connections := s.connections.erase miner }, out)
      | none => (s, [])

def step : Event → Handler State Output
  | .downstream event fresh => onDownstream config fresh event
  | .pool id event => atMapper id (UpstreamMapper.onPoolEvent NonceStorage.ops config event)
  | .gc paused => fun s => (gc paused s).getD (s, [])
  | .tick => tick config

/-- The proxy connects its splitter before it listens. -/
def machine : Machine State Event Output where
  init := (connect config fresh {}).1
  next s e := step config e s

end NonceSplitter

end XmrigProxy
