import XmrigProxy.SimpleMapper
import XmrigProxy.Library.Table
import Mathlib.Data.Finset.Sort

/-! The mappers of the simple mode, one for each miner. A mapper whose miner leaves is stopped
at once, or kept idle for a while; stopped mappers are deleted at the next tick. -/
namespace XmrigProxy.SimpleSplitter

/-- `mappers` are the objects that exist; the other tables refer to them. -/
structure State where
  connections : Table MinerId Connection := ∅
  nextId : ℕ := 0
  sequence : ℕ := 0
  reuseTimeout : ℕ := 0
  mappers : Table ℕ SimpleMapper.State := ∅
  upstreams : Finset ℕ := ∅
  idles : Finset ℕ := ∅
  released : List ℕ := []

inductive Output where
  | mapper (id : ℕ) (output : SimpleMapper.Output)
  | stopped (id : ℕ)
  | deleted (id : ℕ)
  /-- A mapper was looked up that does not exist. -/
  | dangling (id : ℕ)

/-- Applies a handler of one mapper. -/
def atMapper (id : ℕ) (f : Handler SimpleMapper.State SimpleMapper.Output) :
    Handler State Output := fun s =>
  match s.mappers.find id with
  | none => (s, [.dangling id])
  | some mapper =>
      ({ s with mappers := s.mappers.insert id (f mapper).1 }, (f mapper).2.map (.mapper id))

def removeIdle (id : ℕ) (s : State) : State := { s with idles := s.idles.erase id }

def removeUpstream (id : ℕ) (s : State) : State := { s with upstreams := s.upstreams.erase id }

def stop (id : ℕ) : Handler State Output := fun s =>
  Handler.seq (fun s => (s, [.stopped id])) (atMapper id SimpleMapper.stop)
    (removeUpstream id (removeIdle id s))

def delete (id : ℕ) : Handler State Output := fun s =>
  ({ s with mappers := s.mappers.erase id }, [.deleted id])

/-- The first idle mapper that may be handed on. -/
def reusable (s : State) : Option ℕ :=
  (s.idles.sort (· ≤ ·)).find? fun id => (s.mappers.find id).any SimpleMapper.isReusable

/-- The miner is told the id of the mapper that took it. -/
def assign (miner : MinerId) (id : ℕ) (s : State) : State :=
  { s with connections := s.connections.modify miner fun c => { c with mapperId := id } }

/-- A miner without a route takes over an idle mapper, or gets a new one. -/
def login (miner : MinerId) : Handler State Output := fun s =>
  match reusable s with
  | some id => atMapper id (SimpleMapper.reuse miner) (assign miner id (removeIdle id s))
  | none =>
      let id := s.sequence
      atMapper id (SimpleMapper.add miner) (assign miner id
        { s with
          sequence := s.sequence + 1
          mappers := s.mappers.insert id { id }
          upstreams := insert id s.upstreams })

def remove (c : Connection) : Handler State Output := fun s =>
  let id := c.mapperId.toNat
  if c.mapperId < 0 || c.routeId ≠ -1 || id ∉ s.upstreams then (s, [])
  else
    Handler.seq (atMapper id fun mapper => (SimpleMapper.remove mapper, []))
      (fun s =>
        if s.reuseTimeout = 0 then
          Handler.seq (stop id) (fun s => ({ s with released := s.released ++ [id] }, [])) s
        else ({ s with idles := insert id s.idles }, [])) s

def submit (now : ℕ) (event : SubmitEvent) (answer : ℤ) (c : Connection) : Handler State Output :=
  fun s =>
    let id := c.mapperId.toNat
    if c.mapperId < 0 || c.routeId ≠ -1 then (s, [])
    else if id ∉ s.upstreams then (s, [.dangling id])
    else atMapper id (SimpleMapper.submit now event answer) s

/-- The registered mappers that have been idle for too long. -/
def expired (s : State) : List ℕ :=
  (s.upstreams.sort (· ≤ ·)).filter fun id =>
    (s.mappers.find id).any fun mapper => s.reuseTimeout < mapper.idleTime

def tickMappers (s : State) : State :=
  { s with mappers := s.mappers.map fun id mapper =>
      if id ∈ s.upstreams ∧ id ∉ expired s then SimpleMapper.tick mapper else mapper }

def tick : Handler State Output := fun s =>
  Handler.seq (Handler.forEach delete s.released)
    (fun s =>
      let released := expired s
      Handler.forEach stop released { tickMappers s with released }) s

inductive Event where
  | downstream (event : DownstreamEvent)
  | pool (id : ℕ) (event : SimpleMapper.PoolEvent)
  | tick
  | configChanged (reuseTimeout : ℕ) (poolsChanged : Bool)

/-- A connection logs in once, and is closed once. -/
def onDownstream (now : ℕ) : DownstreamEvent → Handler State Output
  | .connect => fun s =>
      ({ s with
          nextId := s.nextId + 1
          connections := s.connections.insert s.nextId.succPNat {} }, [])
  | .login miner donateTo => fun s =>
      match s.connections.find miner with
      | some c =>
          if c.loggedIn then (s, [])
          else match donateTo with
            | some id =>
                let c := { c with loggedIn := true, mapperId := id, routeId := 0 }
                ({ s with connections := s.connections.insert miner c }, [])
            | none =>
                let c := { c with loggedIn := true }
                login miner { s with connections := s.connections.insert miner c }
      | none => (s, [])
  | .submit miner request answer => fun s =>
      match s.connections.find miner with
      | some c => if c.loggedIn then submit now ⟨miner, request, .NoError⟩ answer c s else (s, [])
      | none => (s, [])
  | .close miner => fun s =>
      match s.connections.find miner with
      | some c =>
          let (s, out) := remove c s
          ({ s with connections := s.connections.erase miner }, out)
      | none => (s, [])

def onConfigChanged (reuseTimeout : ℕ) (poolsChanged : Bool) : Handler State Output := fun s =>
  let s := { s with reuseTimeout }
  if poolsChanged then Handler.forEach (fun id => atMapper id SimpleMapper.reload)
    (s.upstreams.sort (· ≤ ·)) s
  else (s, [])

/-- Strategies report to mappers that exist. -/
def step (now : ℕ) : Event → Handler State Output
  | .downstream event => onDownstream now event
  | .pool id event => fun s =>
      if s.mappers.contains id then atMapper id (SimpleMapper.onPoolEvent now event) s else (s, [])
  | .tick => tick
  | .configChanged reuseTimeout poolsChanged => onConfigChanged reuseTimeout poolsChanged

def machine (reuseTimeout : ℕ) : Machine State (ℕ × Event) Output where
  init := { reuseTimeout }
  next s e := step e.1 e.2 s

end XmrigProxy.SimpleSplitter
