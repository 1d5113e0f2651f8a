import Mathlib.Data.List.Sort
import Mathlib.Data.String.Basic
import XmrigProxy.Library.Hex
import XmrigProxy.Library.Json
import XmrigProxy.Library.Machine
import XmrigProxy.Library.Table

/-! The client of the external RandomX verifier, as its source computes it. Callbacks
are opaque handles: an operation reports which ones it called and which it destroyed
without calling. The event loop, the clock and the pipe are inputs. Rows published to
the event stream and log lines leave no trace in the state and are omitted. -/
namespace XmrigProxy.RandomXVerifier

def controlTimeoutMs : ℕ := 120000
def reconnectDelayMs : ℕ := 1000
def seedRetentionMs : ℕ := 120000
def candidateWindowMs : ℕ := 60000
def seedRetryDelayMs : ℕ := 1000
def statsIntervalMs : ℕ := 5000
def maxFrameSize : ℕ := 16 * 1024

def validHash (hash : String) : Bool :=
  hash.length = 64 && (Hex.decode hash.toList).isSome

def validBlob (blob : String) : Bool :=
  blob.length ≠ 0 && blob.length % 2 = 0 && blob.length ≤ 8192 &&
    (Hex.decode blob.toList).isSome

def zeroHash (hash : String) : Bool :=
  hash.length = 64 && hash.toList.all (· = '0')

def hasCapability (capabilities : List Json) (name : String) : Bool :=
  capabilities.any fun
    | .str s => Json.cString s = name
    | _ => false

def validMetric (doc : Json) (name : String) : Bool :=
  match (doc.member name).bind Json.number with
  | some value => 0 ≤ value
  | none => false

/-- Construction parameters, with the bounds that the configuration enforces. -/
structure Options where
  timeoutMs : ℕ
  maxQueue : ℕ
  maxPendingPerMiner : ℕ
  candidateLimit : ℕ
  globalCandidateLimit : ℕ
  emergencyCandidateLimit : ℕ
  maxQueue_le : maxQueue ≤ 65536
  maxPendingPerMiner_le : maxPendingPerMiner ≤ 1024

/-- The sizes that the scenarios over the verifier use are within the bounds. -/
theorem scenarioQueue_le : 1024 ≤ 65536 := by decide

theorem scenarioPending_le : 64 ≤ 1024 := by decide

structure Request where
  owner : ℕ
  shareId : ℕ
  seedHash : String
  blob : String
  claimedHash : String
  jobId : String
  nonce : String
  priority : Bool
  deriving DecidableEq, Repr

structure Result where
  ok : Bool
  hash : String
  error : String
  latencyMs : ℕ
  requestId : ℕ
  deriving DecidableEq, Repr

inductive SeedStatus where
  | wanted
  | requested
  | ready
  deriving DecidableEq, Repr

structure SeedState where
  status : SeedStatus := .wanted
  lastSeenMs : ℕ := 0
  retryAtMs : ℕ := 0
  order : ℕ := 0
  deriving DecidableEq, Repr

structure Pending (κ : Type) where
  request : Request
  callback : κ
  sentAtMs : ℕ
  deriving DecidableEq, Repr

inductive ControlOp where
  | hello
  | prepareSeed
  | releaseSeed
  | stats
  deriving DecidableEq, Repr

structure Control where
  op : ControlOp
  seedHash : String
  sentAtMs : ℕ
  deriving DecidableEq, Repr

inductive Message where
  | control (op : ControlOp) (seedHash : String)
  | verify (request : Request)
  deriving DecidableEq, Repr

inductive Outcome where
  | ok
  | error
  | timeout
  deriving DecidableEq, Repr

/-- `settled` reports the end of a control request together with the status its seed
had just before and just after. -/
inductive Output (κ : Type) where
  | sent (id : ℕ) (message : Message)
  | settled (id : ℕ) (control : Control) (outcome : Outcome)
      (before after : Option SeedStatus)
  | called (callback : κ) (result : Result)
  | dropped (callback : κ)
  | disconnected
  deriving DecidableEq, Repr

structure State (κ : Type) where
  connected : Bool := false
  ready : Bool := false
  stopping : Bool := false
  pipe : Bool := false
  controls : Table ℕ Control := ∅
  candidateWindows : Table ℕ (List ℕ) := ∅
  emergencyCandidateWindows : Table ℕ (List ℕ) := ∅
  globalCandidateWindow : List ℕ := []
  emergencyCandidateWindow : List ℕ := []
  pendingByOwner : Table ℕ ℕ := ∅
  pending : Table ℕ (Pending κ) := ∅
  seeds : Table String SeedState := ∅
  nextRequestId : ℕ := 1
  nextStatsAtMs : ℕ := 0
  reconnectAtMs : ℕ := 0
  seedOrder : ℕ := 0
  vmPoolSize : ℕ := 0

inductive WriteOutcome where
  | sent
  | refused
  | failed
  deriving DecidableEq, Repr

/-- What the event loop provides while one event is handled: the clock, whether a
pipe can be initialised, and the fate of the write that carries each request id
(`refused`: not writable, or the frame is too large; `failed`: the write call fails). -/
structure Env where
  now : ℕ
  pipeInit : Bool := true
  write : ℕ → WriteOutcome := fun _ => .sent

variable {κ : Type}

abbrev Effect (κ : Type) := State κ × List (Output κ)

def seedStatus (s : State κ) (seedHash : String) : Option SeedStatus :=
  (s.seeds.find seedHash).map SeedState.status

section Teardown

def latency (env : Env) (sentAtMs : ℕ) : ℕ := env.now - sentAtMs

def failAll (env : Env) (error : String) (s : State κ) : Effect κ :=
  ({ s with pending := ∅, pendingByOwner := ∅ },
    s.pending.entries.map fun (id, pending) =>
      .called pending.callback ⟨false, "", error, latency env pending.sentAtMs, id⟩)

def disconnect (env : Env) (error : String) (failPending : Bool) (s : State κ) : Effect κ :=
  if !s.connected && !s.pipe then (s, [])
  else
    let reset : State κ := { s with
      connected := false
      ready := false
      controls := ∅
      seeds := s.seeds.map fun _ seed => { seed with status := .wanted, retryAtMs := 0 } }
    let failed := if failPending then failAll env error reset else (reset, [])
    ({ failed.1 with pipe := false, reconnectAtMs := env.now + reconnectDelayMs },
      .disconnected :: failed.2)

def stop (env : Env) (s : State κ) : Effect κ :=
  if s.stopping then (s, [])
  else
    let failed := failAll env "verifier stopped" { s with stopping := true }
    ({ failed.1 with
      controls := ∅
      candidateWindows := ∅
      globalCandidateWindow := []
      ready := false
      connected := false
      pipe := false }, failed.2)

end Teardown

section Sending

def sendDocument (env : Env) (id : ℕ) (message : Message) (s : State κ) : Bool × Effect κ :=
  if !s.pipe || !s.connected then (false, s, [])
  else match env.write id with
    | .refused => (false, s, [])
    | .failed => (false, disconnect env "write failed" false s)
    | .sent => (true, s, [.sent id message])

def sendControl (env : Env) (op : ControlOp) (seedHash : String) (s : State κ) :
    Bool × Effect κ :=
  if !s.connected then (false, s, [])
  else
    let id := s.nextRequestId
    let registered : State κ := { s with
      nextRequestId := id + 1
      controls := s.controls.insert id ⟨op, seedHash, env.now⟩ }
    let (sent, after, out) := sendDocument env id (.control op seedHash) registered
    if sent then (true, after, out)
    else (false, { after with controls := after.controls.erase id }, out)

/-- Asks for one seed and marks it as requested when the request went out. -/
def requestSeed (env : Env) (seedHash : String) (s : State κ) : Effect κ :=
  let (sent, after, out) := sendControl env .prepareSeed seedHash s
  if sent then
    ({ after with seeds := after.seeds.modify seedHash fun seed =>
        { seed with status := .requested, retryAtMs := 0 } }, out)
  else (after, out)

def requestStats (env : Env) (s : State κ) : Effect κ :=
  let s : State κ := { s with nextStatsAtMs := env.now + statsIntervalMs }
  if s.controls.entries.any fun (_, control) => control.op = .stats then (s, [])
  else (sendControl env .stats "" s).2

def wantedSeeds (env : Env) (s : State κ) : List (ℕ × String) :=
  let wanted := s.seeds.entries.filter fun (_, seed) =>
    seed.status = .wanted && seed.retryAtMs ≤ env.now
  (wanted.map fun (seedHash, seed) => (seed.order, seedHash)).insertionSort fun a b =>
    a.1 < b.1 ∨ (a.1 = b.1 ∧ a.2 ≤ b.2)

def requestWantedSeeds (env : Env) (s : State κ) : Effect κ :=
  Handler.forEach (fun entry s =>
    if (s.seeds.find entry.2).isSome then requestSeed env entry.2 s else (s, []))
    (wantedSeeds env s) s

/-- Creates the entry of a seed or refreshes it. -/
def retainSeed (env : Env) (seedHash : String) (s : State κ) : State κ :=
  let seed := (s.seeds.find seedHash).getD {}
  let isNew := seed.order = 0
  let order := if isNew then s.seedOrder + 1 else seed.order
  { s with
    seeds := s.seeds.insert seedHash { seed with order := order, lastSeenMs := env.now }
    seedOrder := if isNew then s.seedOrder + 1 else s.seedOrder }

/-- A seed that is wanted and not waiting for a retry. -/
def seedDue (env : Env) (s : State κ) (seedHash : String) : Bool :=
  (s.seeds.find seedHash).any fun seed => seed.status = .wanted && seed.retryAtMs ≤ env.now

def prepareSeed (env : Env) (seedHash : String) (s : State κ) : Effect κ :=
  if !validHash seedHash || zeroHash seedHash then (s, [])
  else
    let retained := retainSeed env seedHash s
    if retained.connected && retained.ready && seedDue env retained seedHash then
      requestSeed env seedHash retained
    else (retained, [])

end Sending

def isSeedReady (s : State κ) (seedHash : String) : Bool :=
  s.connected && s.ready && seedStatus s seedHash = some .ready

section Requests

variable (options : Options)

def candidateReserve : ℕ :=
  if 1 < options.maxQueue then min 4 (max 1 (options.maxQueue / 16)) else 0

def admissionLimit (priority : Bool) : ℕ :=
  if priority then options.maxQueue else options.maxQueue - candidateReserve options

def ownerLimit (priority : Bool) : ℕ :=
  if priority then options.maxPendingPerMiner + 1 else options.maxPendingPerMiner

def ownerPending (s : State κ) (owner : ℕ) : ℕ := (s.pendingByOwner.find owner).getD 0

/-- The checks of `verify` before the request is written. -/
def admits (request : Request) (s : State κ) : Bool :=
  s.connected && s.ready &&
    s.pending.size < admissionLimit options request.priority &&
    ownerPending s request.owner < ownerLimit options request.priority &&
    isSeedReady s request.seedHash && validHash request.seedHash &&
    validHash request.claimedHash && validBlob request.blob

def verify (env : Env) (request : Request) (callback : Option κ) (s : State κ) :
    Bool × Effect κ :=
  match callback with
  | none => (false, s, [])
  | some callback =>
      if !admits options request s then (false, s, [])
      else
        let id := s.nextRequestId
        let (sent, after, out) := sendDocument env id (.verify request)
          { s with nextRequestId := id + 1 }
        if !sent then (false, after, out)
        else
          (true, { after with
            pending := after.pending.insert id ⟨request, callback, env.now⟩
            pendingByOwner := after.pendingByOwner.insert request.owner
              (ownerPending after request.owner + 1) }, out)

/-- Decrements the counter of one owner and drops it at zero. -/
def releaseOwner (counters : Table ℕ ℕ) (owner : ℕ) : Table ℕ ℕ :=
  match counters.find owner with
  | none => counters
  | some count => if count - 1 = 0 then counters.erase owner else counters.insert owner (count - 1)

/-- Removes one pending request and calls its callback with the given result. -/
def complete (id : ℕ) (pending : Pending κ) (result : Result) (s : State κ) : Effect κ :=
  ({ s with
    pending := s.pending.erase id
    pendingByOwner := releaseOwner s.pendingByOwner pending.request.owner },
    [.called pending.callback result])

def dropWindow (now : ℕ) (window : List ℕ) : List ℕ :=
  window.dropWhile fun at_ => at_ + candidateWindowMs ≤ now

def allowCandidate (env : Env) (owner : ℕ) (s : State κ) : Bool × State κ :=
  if options.candidateLimit = 0 ∧ options.globalCandidateLimit = 0 then (true, s)
  else
    let window := dropWindow env.now ((s.candidateWindows.find owner).getD [])
    let globalWindow := dropWindow env.now s.globalCandidateWindow
    if (options.candidateLimit ≠ 0 ∧ options.candidateLimit ≤ window.length) ∨
        (options.globalCandidateLimit ≠ 0 ∧
          options.globalCandidateLimit ≤ globalWindow.length) then
      (false, { s with
        candidateWindows := s.candidateWindows.insert owner window
        globalCandidateWindow := globalWindow })
    else
      (true, { s with
        candidateWindows := s.candidateWindows.insert owner
          (if options.candidateLimit ≠ 0 then window ++ [env.now] else window)
        globalCandidateWindow :=
          if options.globalCandidateLimit ≠ 0 then globalWindow ++ [env.now]
          else globalWindow })

def allowEmergencyCandidate (env : Env) (owner : ℕ) (s : State κ) : Bool × State κ :=
  if options.emergencyCandidateLimit = 0 then (true, s)
  else
    let ownerWindow := dropWindow env.now ((s.emergencyCandidateWindows.find owner).getD [])
    let window := dropWindow env.now s.emergencyCandidateWindow
    if ownerWindow ≠ [] ∨ options.emergencyCandidateLimit ≤ window.length then
      (false, { s with
        emergencyCandidateWindows := s.emergencyCandidateWindows.insert owner ownerWindow
        emergencyCandidateWindow := window })
    else
      (true, { s with
        emergencyCandidateWindows :=
          s.emergencyCandidateWindows.insert owner (ownerWindow ++ [env.now])
        emergencyCandidateWindow := window ++ [env.now] })

def cancelOwner (owner : ℕ) (s : State κ) : Effect κ :=
  let cancelled := s.pending.filter fun _ pending => pending.request.owner = owner
  ({ s with
    candidateWindows := s.candidateWindows.erase owner
    emergencyCandidateWindows := s.emergencyCandidateWindows.erase owner
    pending := s.pending.filter fun _ pending => pending.request.owner ≠ owner
    pendingByOwner := s.pendingByOwner.erase owner },
    cancelled.entries.map fun (_, pending) => .dropped pending.callback)

end Requests

section Clock

variable (options : Options)

def expireRequest (env : Env) (id : ℕ) (s : State κ) : Effect κ :=
  match s.pending.find id with
  | none => (s, [])
  | some pending =>
      complete id pending
        ⟨false, "", "verifier request timed out", latency env pending.sentAtMs, id⟩ s

def expireRequests (env : Env) (s : State κ) : Effect κ :=
  Handler.forEach (expireRequest env)
    ((s.pending.filter fun _ pending =>
      pending.sentAtMs + options.timeoutMs ≤ env.now).keys) s

def controlTimeout (op : ControlOp) : ℕ :=
  if op = .hello then max 1000 (min options.timeoutMs 5000) else controlTimeoutMs

/-- Ends one control request without an answer. -/
def expireControl (env : Env) (id : ℕ) (control : Control) (s : State κ) : Effect κ :=
  let seeds :=
    if control.op = .prepareSeed then
      s.seeds.modify control.seedHash fun seed =>
        { seed with status := .wanted, retryAtMs := env.now + seedRetryDelayMs }
    else s.seeds
  let after : State κ := { s with seeds := seeds, controls := s.controls.erase id }
  (after, [.settled id control .timeout (seedStatus s control.seedHash)
    (seedStatus after control.seedHash)])

/-- The loop over the control requests; a late `hello` breaks the connection and ends
the tick. -/
def expireControls (env : Env) : List (ℕ × Control) → State κ → Bool × Effect κ
  | [], s => (true, s, [])
  | (id, control) :: rest, s =>
      if env.now < control.sentAtMs + controlTimeout options control.op then
        expireControls env rest s
      else if control.op = .hello then
        (false, disconnect env "verifier hello timed out" true s)
      else
        let first := expireControl env id control s
        let later := expireControls env rest first.1
        (later.1, later.2.1, first.2 ++ later.2.2)

def releaseSeed (env : Env) (seedHash : String) (s : State κ) : Effect κ :=
  let sent := if s.connected && s.ready then (sendControl env .releaseSeed seedHash s).2
    else (s, [])
  ({ sent.1 with seeds := sent.1.seeds.erase seedHash }, sent.2)

def releaseSeeds (env : Env) (s : State κ) : Effect κ :=
  Handler.forEach (releaseSeed env)
    ((s.seeds.filter fun _ seed => seed.lastSeenMs + seedRetentionMs ≤ env.now).keys) s

def connect (env : Env) (s : State κ) : State κ :=
  if s.stopping || s.pipe then s
  else if env.pipeInit then { s with pipe := true }
  else { s with reconnectAtMs := env.now + reconnectDelayMs }

def start (env : Env) (s : State κ) : State κ := connect env { s with stopping := false }

/-- The part of `tick` after the control requests. -/
def maintain (env : Env) : Handler (State κ) (Output κ) :=
  Handler.seq (releaseSeeds env) <|
    Handler.seq (fun s =>
      if s.connected && s.ready then
        Handler.seq (requestWantedSeeds env)
          (fun s => if s.nextStatsAtMs ≤ env.now then requestStats env s else (s, [])) s
      else (s, []))
    (fun s =>
      (if !s.stopping && !s.pipe && s.reconnectAtMs ≤ env.now then connect env s else s, []))

def tick (env : Env) : Handler (State κ) (Output κ) :=
  Handler.seq (expireRequests options env) fun s =>
    let (more, after, out) := expireControls options env s.controls.entries s
    if more then
      let rest := maintain env after
      (rest.1, out ++ rest.2)
    else (after, out)

end Clock

section Responses

def helloAccepted (doc : Json) : Bool :=
  let capabilities := doc.getArray "capabilities"
  doc.getString "service" "" = "xmrig-randomx-verifier" &&
    doc.getString "mode" "" = "fast" && !doc.getBool "allow_light_fallback" true &&
    doc.getUint "max_frame" 0 ≠ 0 && doc.getUint "max_frame" 0 ≤ maxFrameSize &&
    doc.getUint "vm_pool_size" 0 ≠ 0 && hasCapability capabilities "prepare_seed" &&
    hasCapability capabilities "release_seed" && hasCapability capabilities "verify" &&
    hasCapability capabilities "stats"

/-- Both texts are encodings of the same 32 bytes. -/
def sameHash (a b : String) : Bool :=
  validHash a && validHash b && Hex.decode a.toList = Hex.decode b.toList

def matchingSeed (doc : Json) (seedHash : String) : Bool :=
  sameHash seedHash (doc.getString "seed_hash" "")

/-- The answer to a control request, already removed from the table. -/
def controlAnswered (env : Env) (doc : Json) (id : ℕ) (control : Control) (s : State κ) :
    Effect κ :=
  let ok := doc.getBool "ok" false
  let outcome : Outcome := if ok then .ok else .error
  match control.op with
  | .hello =>
      if !ok then disconnect env (doc.getString "error" "verifier hello rejected") true s
      else if !helloAccepted doc then
        disconnect env "verifier hello lacks required fast-mode capabilities" true s
      else
        Handler.seq (requestWantedSeeds env) (requestStats env)
          { s with vmPoolSize := doc.getUint "vm_pool_size" 0, ready := true }
  | .prepareSeed =>
      if ok && (!matchingSeed doc control.seedHash || doc.getString "state" "" ≠ "ready") then
        disconnect env "invalid prepare_seed readiness response" true s
      else
        let after : State κ := { s with seeds := s.seeds.modify control.seedHash fun seed =>
          { seed with
            status := if ok then .ready else .wanted
            retryAtMs := if ok then 0 else env.now + seedRetryDelayMs } }
        (after, [.settled id control outcome (seedStatus s control.seedHash)
          (seedStatus after control.seedHash)])
  | .releaseSeed | .stats =>
      (s, [.settled id control outcome (seedStatus s control.seedHash)
        (seedStatus s control.seedHash)])

/-- The result handed to the callback for an answer to a verification request. -/
def verifyResult (env : Env) (doc : Json) (id : ℕ) (pending : Pending κ) : Result :=
  let ok := doc.getBool "ok" false
  let hash := doc.getString "hash" ""
  let error := doc.getString "error" ""
  let result : Result := ⟨ok, hash, error, latency env pending.sentAtMs, id⟩
  if ok && !validHash hash then
    { result with ok := false, error := "verifier returned an invalid hash" }
  else if ok then
    match doc.member "match" with
    | some (.bool flag) =>
        if !validMetric doc "queue_ms" || !validMetric doc "hash_ms" ||
            !validMetric doc "total_ms" then
          { result with ok := false, error := "verifier returned a malformed success response" }
        else if flag ≠ sameHash pending.request.claimedHash hash then
          { result with ok := false, error := "verifier returned an inconsistent match flag" }
        else result
    | _ => { result with ok := false, error := "verifier returned a malformed success response" }
  else if error = "" then
    { result with error := "verifier rejected request without an error" }
  else result

def handleResponse (env : Env) (doc : Json) (s : State κ) : Effect κ :=
  if doc.getUint "v" 0 ≠ 1 then
    disconnect env "unsupported verifier protocol version" true s
  else
    let id := doc.getUint64 "id" 0
    if id = 0 then disconnect env "verifier response missing id" true s
    else match s.controls.find id with
      | some control =>
          controlAnswered env doc id control { s with controls := s.controls.erase id }
      | none =>
          match s.pending.find id with
          | none => (s, [])
          | some pending => complete id pending (verifyResult env doc id pending) s

/-- One complete frame; `none` stands for one that is not a JSON object. -/
def handleFrame (env : Env) (frame : Option Json) (s : State κ) : Effect κ :=
  match frame with
  | none => disconnect env "malformed verifier JSON response" true s
  | some doc => handleResponse env doc s

def onConnect (env : Env) (accepted : Bool) (s : State κ) : Effect κ :=
  if s.stopping then (s, [])
  else if !accepted then disconnect env "connection failed" true s
  else
    let (sent, after, out) := sendControl env .hello ""
      { s with connected := true, ready := false }
    if sent then (after, out)
    else
      let closed := disconnect env "failed to send verifier hello" true after
      (closed.1, out ++ closed.2)

end Responses

section Runs

inductive Event where
  | start
  | stop
  | tick
  | onConnect (accepted : Bool)
  | frame (doc : Option Json)
  | closed (error : String)
  | verify (request : Request) (hasCallback : Bool)
  | cancelOwner (owner : ℕ)
  | prepareSeed (seedHash : String)
  | allowCandidate (owner : ℕ)
  | allowEmergencyCandidate (owner : ℕ)

/-- The verifier together with the number of calls of `verify` made so far, which
names the callback of the next call. -/
structure System where
  verifier : State ℕ := {}
  calls : ℕ := 0

inductive Observation where
  | output (output : Output ℕ)
  | admitted (call : ℕ)
  | refused (call : ℕ)
  deriving DecidableEq, Repr

/-- Everything but a call of `verify`. The verifier is started once, before it can be
stopped, and a connect request is outstanding exactly while a pipe exists that is not
connected; frames are read only from a connected pipe. -/
def handle (options : Options) (env : Env) : Event → Handler (State ℕ) (Output ℕ)
  | .start, s => if s.stopping then (s, []) else (start env s, [])
  | .stop, s => stop env s
  | .tick, s => tick options env s
  | .onConnect accepted, s =>
      if s.pipe && !s.connected then onConnect env accepted s else (s, [])
  | .frame doc, s => if s.connected then handleFrame env doc s else (s, [])
  | .closed error, s => disconnect env error true s
  | .verify _ _, s => (s, [])
  | .cancelOwner owner, s => cancelOwner owner s
  | .prepareSeed seedHash, s => prepareSeed env seedHash s
  | .allowCandidate owner, s => ((allowCandidate options env owner s).2, [])
  | .allowEmergencyCandidate owner, s => ((allowEmergencyCandidate options env owner s).2, [])

def step (options : Options) (sys : System) (e : Env × Event) : System × List Observation :=
  match e with
  | (env, .verify request hasCallback) =>
      let callback := if hasCallback then some sys.calls else none
      let (admitted, after, out) := verify options env request callback sys.verifier
      (⟨after, sys.calls + 1⟩,
        out.map .output ++ [if admitted then .admitted sys.calls else .refused sys.calls])
  | (env, event) =>
      let (after, out) := handle options env event sys.verifier
      ({ sys with verifier := after }, out.map .output)

def machine (options : Options) : Machine System (Env × Event) Observation :=
  ⟨{}, step options⟩

end Runs

end XmrigProxy.RandomXVerifier
