import XmrigProxy.DaemonSubmission
import XmrigProxy.Hashrate
import XmrigProxy.JobTarget
import XmrigProxy.Library.Dispatch
import XmrigProxy.SimpleSplitter

/-! The events of the proxy in simple mode, and the listeners that they are passed to. Every event
is built in one buffer; what a listener does reaches the mappers, their strategies and the daemon
clients, which report results back in the middle of it. -/
namespace XmrigProxy

open DaemonSubmission (SubmitResult)

namespace CString

def decimalValue (cs : List Char) : ℕ :=
  (cs.takeWhile Char.isDigit).foldl (fun n c => 10 * n + (c.toNat - 48)) 0

/-- An overflow saturates; a minus sign wraps around. -/
def decimalNumber (negative : Bool) (cs : List Char) : ℕ :=
  let n := decimalValue cs
  if 2 ^ 64 ≤ n then 2 ^ 64 - 1
  else if negative then (2 ^ 64 - n) % 2 ^ 64
  else n

/-- `strtoul` to base 10, of which the end of the number is not used. -/
def strtoul (text : List Char) : ℕ :=
  match text.dropWhile isSpace with
  | '-' :: cs => decimalNumber true cs
  | '+' :: cs => decimalNumber false cs
  | cs => decimalNumber false cs

end CString

/-- What a miner said of itself when it logged in. -/
structure Identity where
  ip : String := ""
  user : Option String := none
  password : Option String := none
  agent : Option String := none
  rigId : Option String := none

namespace Events

inductive Kind where
  | connection
  | login
  | submit
  | accept
  | close
  deriving DecidableEq

inductive Event where
  | connection (miner : MinerId) (port : ℕ)
  | login (miner : MinerId) (loginId : ℤ) (url : Option String) (rejected : Bool)
  | submit (event : SubmitEvent)
  | accept (mapperId : ℤ) (miner : Option MinerId) (result : SubmitResult)
      (donate customDiff : Bool) (error : Option String)
  | close (miner : MinerId)

def Event.kind : Event → Kind
  | .connection .. => .connection
  | .login .. => .login
  | .submit _ => .submit
  | .accept .. => .accept
  | .close _ => .close

def Event.isRejected : Event → Bool
  | .login _ _ _ rejected => rejected
  | .submit event => event.error ≠ .NoError
  | .accept _ _ _ _ _ error => error.isSome
  | _ => false

/-- What an event was constructed with. Listeners may reject a login and fail a submission. -/
def Event.constructed : Event → Event
  | .login miner loginId url _ => .login miner loginId url false
  | .submit event => .submit (event.setError .NoError)
  | e => e

inductive Listener where
  | miners
  | donate
  | splitter
  | login
  | customDiff
  | stats
  | accessLog
  | shareLog
  | workers
  | debug
  | eventStream
  deriving DecidableEq

inductive WorkersMode where
  | none
  | rigId
  | user
  | password
  | agent
  | ip
  deriving DecidableEq

/-- `donatesTo` tells which addresses a miner may be routed to on its own request, and `verifier`
whether shares are verified. -/
structure Settings where
  pools : ℕ := 1
  password : Option String := none
  diff : ℕ := 0
  verifier : Bool := false
  donateOverProxy : Bool := false
  donatesTo : String → Bool := fun _ => false
  workersMode : WorkersMode := .rigId
  customDiffStats : Bool := false
  eventStream : Bool := false

/-- The order of the subscriptions. -/
def listeners (c : Settings) (kind : Kind) : List Listener :=
  (match kind with
    | .connection => [.miners, .stats, .debug]
    | .close => [.miners, .donate, .splitter, .stats, .accessLog, .workers, .debug]
    | .login => [.login, .donate, .customDiff, .splitter, .stats, .accessLog, .workers, .debug]
    | .submit => [.donate, .splitter, .stats, .workers, .debug]
    | .accept => [.stats, .shareLog, .workers, .debug]) ++
    if c.eventStream then [.eventStream] else []

/-- `names` and `miners` hold positions of `workers`. -/
structure WorkersData where
  miners : Table MinerId ℕ := ∅
  names : Table String ℕ := ∅
  workers : List Worker := []
  deriving DecidableEq

namespace Workers

def nameByMiner (mode : WorkersMode) (miner : Identity) : Option String :=
  match mode with
  | .none => .none
  | .rigId => if miner.rigId.any (· ≠ "") then miner.rigId else miner.user
  | .user => miner.user
  | .password => miner.password
  | .agent => miner.agent
  | .ip => some miner.ip

def add (mode : WorkersMode) (miner : MinerId) (identity : Identity) (w : WorkersData) :
    WorkersData :=
  let key := (nameByMiner mode identity).getD "unknown"
  match w.names.find key with
  | none =>
      let id := w.workers.length
      { miners := w.miners.insert miner id
        names := w.names.insert key id
        workers := w.workers ++ [{ id, ip := identity.ip, name := key }] }
  | some id =>
      { w with
        miners := w.miners.insert miner id
        workers := w.workers.modify id fun worker => worker.step (.addConnection identity.ip) }

def indexByMiner (c : Connection) (miner : MinerId) (w : WorkersData) : Option ℕ :=
  if c.mapperId = -1 then none
  else (w.miners.find miner).filter fun index => index < w.workers.length

def login (mode : WorkersMode) (c : Connection) (miner : MinerId) (identity : Identity)
    (w : WorkersData) : WorkersData :=
  if c.routeId ≠ -1 then w else add mode miner identity w

/-- What happens to the worker of a miner, if it has one. -/
def atWorker (c : Connection) (miner : MinerId) (input : Worker.Input) (w : WorkersData) :
    WorkersData :=
  match indexByMiner c miner w with
  | none => w
  | some index => { w with workers := w.workers.modify index fun worker => worker.step input }

def remove (c : Connection) (miner : MinerId) (w : WorkersData) : WorkersData :=
  if c.routeId ≠ -1 then w else atWorker c miner .remove w

def reject (c : Connection) (miner : MinerId) (w : WorkersData) : WorkersData :=
  if c.routeId ≠ -1 then w else atWorker c miner (.reject true) w

/-- Accepted and rejected results alike. -/
def accept (customDiffStats : Bool) (now : UInt64) (c : Connection) (miner : MinerId)
    (event : Stats.AcceptEvent) (w : WorkersData) : WorkersData :=
  if event.isCustomDiff && !customDiffStats then w
  else if event.ambiguous then w
  else if event.isRejected then atWorker c miner (.reject false) w
  else atWorker c miner (.add (if customDiffStats then event.statsDiff else event.diff) now) w

end Workers

/-- A miner that was routed to a pool of its own choice, and whether that pool is still there. -/
structure DonateMapper where
  miner : MinerId
  active : Bool := true

/-- The proxy in simple mode. `clients` are those of each mapper's strategies, whose requests are
numbered from one counter. -/
structure State where
  splitter : SimpleSplitter.State := {}
  clients : ℕ → ℕ → List DaemonSubmission.State := fun _ _ => []
  sequence : ℕ := 1
  identity : MinerId → Identity := fun _ => {}
  customDiff : MinerId → ℕ := fun _ => 0
  miners : Finset MinerId := ∅
  donateSequence : ℕ := 0
  donateMappers : Table ℕ DonateMapper := ∅
  stats : Stats.State := {}
  workers : WorkersData := {}

/-- What happens around an event: the time, the time that a result took, the job of a template that
is replayed to a client that connects, and the client and the block of a submission that is sent. -/
structure Surroundings where
  now : ℕ := 0
  elapsed : ℕ := 0
  replay : Option Job := none
  client : ℕ := 0
  block : Option DaemonSubmission.Block := none

def connectionOf (miner : MinerId) (s : State) : Option Connection :=
  s.splitter.connections.find miner

namespace Miners

def onEvent (e : Event) (s : State) : State :=
  match e with
  | .connection miner _ => { s with miners := insert miner s.miners }
  | .close miner => { s with miners := s.miners.erase miner }
  | _ => s

end Miners

namespace Login

def login (c : Settings) (s : State) (e : Event) : Event :=
  match e with
  | .login miner loginId url rejected =>
      if c.password.isSome && (s.identity miner).password ≠ c.password then
        .login miner loginId url true
      else .login miner loginId url rejected
  | e => e

end Login

namespace CustomDiff

/-- What stands behind the last plus sign of the user, if there is one. -/
def suffix (user : String) : Option (List Char) :=
  if '+' ∈ user.toList then some (user.toList.reverse.takeWhile (· ≠ '+')).reverse else none

/-- The difficulty that the user asks for, if it may be granted. -/
def requested (c : Settings) (identity : Identity) : Option ℕ := do
  let user ← identity.user
  let text ← suffix user
  let diff := CString.strtoul text
  guard (100 ≤ diff ∧ diff < 2 ^ 31 - 1)
  guard (c.verifier → c.diff ≠ 0 ∧ c.diff ≤ diff)
  pure diff

def login (c : Settings) (e : Event) (s : State) : State :=
  match e with
  | .login miner _ _ _ =>
      match connectionOf miner s with
      | none => s
      | some conn =>
          if conn.routeId ≠ -1 then s
          else
            let diff := (requested c (s.identity miner)).getD c.diff
            { s with customDiff := Function.update s.customDiff miner diff }
  | _ => s

end CustomDiff

namespace DonateSplitter

def remove (miner : MinerId) (s : State) : State :=
  match connectionOf miner s with
  | none => s
  | some conn =>
      if conn.mapperId < 0 || conn.routeId ≠ 0 then s
      else { s with donateMappers := s.donateMappers.erase conn.mapperId.toNat }

/-- A miner may ask to be routed to a pool of its own. -/
def login (c : Settings) (miner : MinerId) (loginId : ℤ) (url : Option String)
    (e : Event) (s : State) : State × Event :=
  if !c.donateOverProxy then (s, e)
  else match url with
    | none => (s, e)
    | some address =>
        if !c.donatesTo address then (s, .login miner loginId url true)
        else
          let id := s.donateSequence
          ({ s with
              donateSequence := id + 1
              donateMappers := s.donateMappers.insert id { miner }
              splitter.connections := s.splitter.connections.modify miner fun conn =>
                { conn with
                  routeId := 0
                  mapperId := id } }, e)

def submit (event : SubmitEvent) (s : State) : SubmitEvent :=
  match connectionOf event.miner s with
  | none => event
  | some conn =>
      if conn.mapperId < 0 || conn.routeId ≠ 0 then event
      else match s.donateMappers.find conn.mapperId.toNat with
        | none => event
        | some mapper => if mapper.active then event else event.setError .BadGateway

def onEvent (c : Settings) (e : Event) (s : State) : State × Event :=
  match e with
  | .close miner => (remove miner s, e)
  | .login miner loginId url _ => login c miner loginId url e s
  | .submit event => (s, .submit (submit event s))
  | _ => (s, e)

end DonateSplitter

namespace Splitter

def fresh (pools : ℕ) : List DaemonSubmission.State := List.replicate pools {}

/-- The calls of the listener among what a client did. -/
def reports (out : List DaemonSubmission.Output) : List (SubmitResult × Option String) :=
  out.filterMap fun
    | .reported result error => some (result, error)
    | _ => none

/-- A result of a daemon client becomes an event of the mapper. -/
def accepted (id : ℕ) (s : State) (report : SubmitResult × Option String) : Event :=
  .accept id ((s.splitter.mappers.find id).bind fun mapper => mapper.miner) report.1 false false
    report.2

def setClients (id strategy : ℕ) (clients : List DaemonSubmission.State) (s : State) : State :=
  { s with
    clients := Function.update s.clients id (Function.update (s.clients id) strategy clients) }

/-- A strategy disconnects some of its clients. -/
def disconnect (id strategy : ℕ) (chosen : ℕ → Bool) : Handler State Event := fun s =>
  let outcomes := (s.clients id strategy).mapIdx fun i client =>
    if chosen i then DaemonSubmission.disconnect client else (client, [])
  (setClients id strategy (outcomes.map Prod.fst) s,
    (reports (outcomes.flatMap Prod.snd)).map (accepted id s))

/-- Lets one client do something. -/
def atClient (id strategy client : ℕ)
    (f : DaemonSubmission.State → DaemonSubmission.State × List DaemonSubmission.Output) :
    Handler State Event := fun s =>
  match (s.clients id strategy)[client]? with
  | none => (s, [])
  | some old =>
      let r := f { old with sequence := s.sequence }
      ({ setClients id strategy ((s.clients id strategy).set client r.1) s with
          sequence := r.1.sequence },
        (reports r.2).map (accepted id s))

def mapperJob (now : ℕ) (id strategy : ℕ) (job : Job) (s : State) : State :=
  let active := SimpleSplitter.atMapper id (SimpleMapper.onActive strategy) s.splitter
  { s with splitter :=
    (SimpleSplitter.atMapper id (SimpleMapper.setJob now job strategy) active.1).1 }

/-- A new strategy connects its first client. A template that is replayed to the client completes
its login at once, and the clients behind it are disconnected. -/
def connect (c : Settings) (w : Surroundings) (id strategy : ℕ) : Handler State Event := fun s =>
  let s := setClients id strategy (fresh c.pools) s
  match w.replay with
  | none => (s, [])
  | some job =>
      Handler.seq (disconnect id strategy fun i => 1 ≤ i)
        (fun s => (mapperJob w.now id strategy job s, [])) s

def onOutput (c : Settings) (w : Surroundings) : SimpleSplitter.Output → Handler State Event
  | .mapper id (.connect strategy) => connect c w id strategy
  | .mapper id (.stop strategy) => disconnect id strategy fun _ => true
  | .mapper id (.submitted strategy _ _ answer) =>
      if answer < 0 then Handler.skip
      else atClient id strategy w.client fun client =>
        (DaemonSubmission.submit w.now w.block client).2
  -- a client that is destroyed reports nothing
  | .deleted id => fun s =>
      ({ s with clients := Function.update s.clients id fun _ => [] }, [])
  | _ => Handler.skip

/-- A handler of the splitter, with all that follows from it. -/
def run (c : Settings) (w : Surroundings) (f : Handler SimpleSplitter.State SimpleSplitter.Output) :
    Handler State Event := fun s =>
  let r := f s.splitter
  Handler.forEach (onOutput c w) r.2 { s with splitter := r.1 }

/-- The event of a submission as the mapper leaves it. -/
def finished (event : SubmitEvent) : List SimpleSplitter.Output → SubmitEvent
  | [] => event
  | .mapper _ (.finished event') :: rest => finished event' rest
  | _ :: rest => finished event rest

/-- What the client answers to a submission. -/
def answer (w : Surroundings) (s : State) : ℤ := if w.block.isSome then s.sequence else -1

def onEvent (c : Settings) (w : Surroundings) (e : Event) (s : State) :
    Dispatch.Reaction State Event :=
  match e with
  | .close miner =>
      match connectionOf miner s with
      | none => { state := s, event := e }
      | some conn =>
          let r := run c w (SimpleSplitter.remove conn) s
          { state := r.1, event := e, raised := r.2 }
  | .login miner _ _ _ =>
      match connectionOf miner s with
      | none => { state := s, event := e }
      | some conn =>
          if conn.routeId ≠ -1 then { state := s, event := e }
          else
            let r := run c w (SimpleSplitter.login miner) s
            { state := r.1, event := e, raised := r.2 }
  | .submit event =>
      match connectionOf event.miner s with
      | none => { state := s, event := e }
      | some conn =>
          let submit := SimpleSplitter.submit w.now event (answer w s) conn
          let r := run c w submit s
          { state := r.1, event := .submit (finished event (submit s.splitter).2), raised := r.2 }
  | _ => { state := s, event := e }

end Splitter

namespace Stats

open XmrigProxy.Stats (Input AcceptEvent)

/-- What an accepted or rejected result tells the counters. -/
def acceptEvent (w : Surroundings) (s : State) (miner : Option MinerId) (result : SubmitResult)
    (donate customDiff : Bool) (error : Option String) : AcceptEvent where
  diff := UInt64.ofNat result.diff
  actualDiff := UInt64.ofNat result.actualDiff
  minerDiff := UInt64.ofNat result.minerDiff
  elapsed := UInt64.ofNat w.elapsed
  ambiguous := result.outcome = .ambiguous
  customDiff := miner.map fun miner => UInt64.ofNat (s.customDiff miner)
  isCustomDiff := customDiff
  isDonate := donate
  isRejected := error.isSome

def input (c : Settings) (w : Surroundings) (e : Event) (s : State) : Option Input :=
  match e with
  | .connection .. => some .connection
  | .close _ => some .close
  | .submit event => if event.error ≠ .NoError then some .submitRejected else none
  | .accept _ miner result donate customDiff error =>
      some (.accept c.customDiffStats (acceptEvent w s miner result donate customDiff error))
  | .login .. => none

/-- Rejected events included. -/
def onEvent (c : Settings) (w : Surroundings) (e : Event) (s : State) : State :=
  match input c w e s with
  | none => s
  | some i => { s with stats := XmrigProxy.Stats.step s.stats i }

end Stats

namespace Workers

/-- Rejected events included. -/
def onEvent (c : Settings) (w : Surroundings) (e : Event) (s : State) : State :=
  if c.workersMode = .none then s
  else match e with
    | .login miner _ _ rejected =>
        match connectionOf miner s with
        | some conn =>
            if rejected then s
            else { s with workers := login c.workersMode conn miner (s.identity miner) s.workers }
        | none => s
    | .close miner =>
        match connectionOf miner s with
        | some conn => { s with workers := remove conn miner s.workers }
        | none => s
    | .submit event =>
        match connectionOf event.miner s with
        | some conn =>
            if event.error ≠ .NoError then
              { s with workers := reject conn event.miner s.workers }
            else s
        | none => s
    | .accept _ (some miner) result donate customDiff error =>
        match connectionOf miner s with
        | some conn =>
            let event := Stats.acceptEvent w s (some miner) result donate customDiff error
            let now := UInt64.ofNat w.now
            { s with workers := accept c.customDiffStats now conn miner event s.workers }
        | none => s
    | _ => s

end Workers

/-- What a listener does with an event. The logs and the event stream change nothing here, and a
rejected event is none of the business of most others. -/
def react (c : Settings) (w : Surroundings) (listener : Listener) (e : Event) (s : State) :
    Dispatch.Reaction State Event :=
  match listener with
  | .stats => { state := Stats.onEvent c w e s, event := e }
  | .workers => { state := Workers.onEvent c w e s, event := e }
  | .miners => { state := if e.isRejected then s else Miners.onEvent e s, event := e }
  | .customDiff => { state := if e.isRejected then s else CustomDiff.login c e s, event := e }
  | .login => { state := s, event := if e.isRejected then e else Login.login c s e }
  | .donate =>
      if e.isRejected then { state := s, event := e }
      else
        let r := DonateSplitter.onEvent c e s
        { state := r.1, event := r.2 }
  | .splitter =>
      if e.isRejected then { state := s, event := e } else Splitter.onEvent c w e s
  | .accessLog | .shareLog | .debug | .eventStream => { state := s, event := e }

/-- The record of one call of `exec`. -/
structure Dispatched where
  event : Event
  visits : List (Listener × Event)
  refused : List Event

/-- Outside of a dispatch nothing is refused. -/
def exec (c : Settings) (w : Surroundings) (e : Event) : Handler State Dispatched := fun s =>
  let outcome := Dispatch.visit (react c w) (listeners c e.kind) e s
  (outcome.state, [{ event := e, visits := outcome.visits, refused := outcome.refused }])

/-- Events that are raised outside of a dispatch are passed around one after another. -/
def execAll (c : Settings) (w : Surroundings) (f : Handler State Event) :
    Handler State Dispatched :=
  fun s => Handler.forEach (exec c w) (f s).2 (f s).1

/-- Everything that reaches the proxy from outside. -/
inductive Input where
  | connect (port : ℕ)
  | login (miner : MinerId) (identity : Identity) (loginId : ℤ) (url : Option String)
  /-- A submission that passed the checks of the miner, or did not. -/
  | submit (event : SubmitEvent)
  /-- A share that is accepted without the daemon. -/
  | acceptLocal (miner : MinerId) (result : SubmitResult)
  | close (miner : MinerId)
  | donateResult (id : ℕ) (result : SubmitResult) (error : Option String)
  | donateClosed (id : ℕ)
  | response (id strategy client rpcId : ℕ) (data : DaemonSubmission.HttpData)
  | retry (id strategy client : ℕ)
  /-- A client completed its login, and the one that is active now is told. -/
  | loggedIn (id strategy active : ℕ)
  | active (id strategy : ℕ)
  | pause (id strategy : ℕ)
  | job (id strategy : ℕ) (job : Job)
  | tick
  | configChanged (reuseTimeout : ℕ) (poolsChanged : Bool)

/-- Whether a mapper still has the strategy. -/
def hasStrategy (id strategy : ℕ) (s : State) : Bool :=
  (s.splitter.mappers.find id).any fun mapper =>
    mapper.strategy = strategy || mapper.pending = some strategy

/-- Only strategies that exist are heard. -/
def ofStrategy (id strategy : ℕ) (f : Handler State Dispatched) :
    Handler State Dispatched := fun s => if hasStrategy id strategy s then f s else (s, [])

/-- Only miners that have logged in are heard. -/
def ofMiner (miner : MinerId) (f : Connection → Handler State Dispatched) :
    Handler State Dispatched := fun s =>
  match connectionOf miner s with
  | none => (s, [])
  | some conn => if conn.loggedIn then f conn s else (s, [])

def login (c : Settings) (w : Surroundings) (miner : MinerId) (identity : Identity) (loginId : ℤ)
    (url : Option String) : Handler State Dispatched := fun s =>
  match connectionOf miner s with
  | none => (s, [])
  | some conn =>
      if conn.loggedIn then (s, [])
      else exec c w (.login miner loginId url false)
        { s with
          identity := Function.update s.identity miner identity
          splitter.connections := s.splitter.connections.insert miner
            { conn with loggedIn := true } }

def close (c : Settings) (w : Surroundings) (miner : MinerId) : Handler State Dispatched := fun s =>
  match connectionOf miner s with
  | none => (s, [])
  | some _ =>
      Handler.seq (exec c w (.close miner))
        (fun s => ({ s with splitter.connections := s.splitter.connections.erase miner }, [])) s

def step (c : Settings) (w : Surroundings) : Input → Handler State Dispatched
  | .connect port => fun s =>
      let miner := s.splitter.nextId.succPNat
      exec c w (.connection miner port)
        { s with
          splitter.nextId := s.splitter.nextId + 1
          splitter.connections := s.splitter.connections.insert miner {} }
  | .login miner identity loginId url => login c w miner identity loginId url
  | .submit event => ofMiner event.miner fun _ => exec c w (.submit event)
  | .acceptLocal miner result => ofMiner miner fun conn =>
      exec c w (.accept conn.mapperId (some miner) result false true none)
  | .close miner => close c w miner
  | .donateResult id result error => fun s =>
      match s.donateMappers.find id with
      | none => (s, [])
      | some mapper => exec c w (.accept id (some mapper.miner) result true false error) s
  | .donateClosed id => fun s =>
      ({ s with donateMappers := s.donateMappers.modify id fun mapper =>
          { mapper with active := false } }, [])
  | .response id strategy client rpcId data =>
      ofStrategy id strategy (execAll c w (Splitter.atClient id strategy client
        (DaemonSubmission.onHttpData w.now rpcId data)))
  | .retry id strategy client =>
      ofStrategy id strategy (execAll c w (Splitter.atClient id strategy client
        (DaemonSubmission.tick w.now)))
  | .loggedIn id strategy active =>
      ofStrategy id strategy (execAll c w (Splitter.disconnect id strategy fun i =>
        1 ≤ i && i ≠ active))
  | .active id strategy =>
      ofStrategy id strategy (execAll c w (Splitter.run c w
        (SimpleSplitter.atMapper id (SimpleMapper.onActive strategy))))
  | .pause id strategy =>
      ofStrategy id strategy (execAll c w (Splitter.run c w
        (SimpleSplitter.atMapper id fun mapper => (SimpleMapper.onPause strategy mapper, []))))
  | .job id strategy job =>
      ofStrategy id strategy (execAll c w (Splitter.run c w
        (SimpleSplitter.atMapper id (SimpleMapper.setJob w.now job strategy))))
  | .tick => execAll c w (Splitter.run c w SimpleSplitter.tick)
  | .configChanged reuseTimeout poolsChanged =>
      execAll c w (Splitter.run c w (SimpleSplitter.onConfigChanged reuseTimeout poolsChanged))

def machine (c : Settings) (reuseTimeout : ℕ) :
    Machine State (Surroundings × Input) Dispatched where
  init := { splitter := { reuseTimeout } }
  next s e := step c e.1 e.2 s

end Events

end XmrigProxy
