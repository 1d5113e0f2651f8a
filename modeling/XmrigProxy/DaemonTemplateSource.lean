import XmrigProxy.DaemonSubmission

/-! The shared source of block templates of one daemon. A template and a height request may
each be outstanding; what is asked for meanwhile is recorded and drained when a response
arrives, and a height that does not yet show a notified block is asked for again by a
timer. Listeners learn of every request, error, snapshot and notification, and may shut the
source down while they do. Addresses, latencies and TLS metadata are omitted. -/
namespace XmrigProxy.DaemonTemplateSource

open Handler
open DaemonSubmission (HttpData)

inductive RequestKind where
  | blockTemplate
  | height
  deriving DecidableEq, Repr

inductive RefreshReason where
  | initial
  | timer
  | zmq
  deriving DecidableEq, Repr

def kReserveSize : ℕ := 16
def kMaxZmqHeightRetries : ℕ := 10

structure RequestMetadata where
  kind : RequestKind := .blockTemplate
  reason : RefreshReason := .initial
  requestId : ℕ := 0
  generation : ℕ := 0
  deriving DecidableEq, Repr

structure Snapshot where
  blocktemplateBlob : String
  blockhashingBlob : String
  seedHash : String
  previousSeedHash : String
  nextSeedHash : String
  prevHash : String
  difficulty : ℕ
  height : ℕ
  reservedOffset : ℕ
  reserveSize : ℕ
  generation : ℕ
  fetchedSteadyMs : ℕ
  request : RequestMetadata
  deriving DecidableEq

structure State where
  heightInFlight : Bool := false
  heightFollowup : Bool := false
  heightPending : Bool := false
  heightRetryFollowup : Bool := false
  isShutdown : Bool := false
  started : Bool := false
  templateInFlight : Bool := false
  templatePending : Bool := false
  pendingReason : RefreshReason := .timer
  heightRequest : RequestMetadata := {}
  templateRequest : RequestMetadata := {}
  latest : Option Snapshot := none
  previousSeedHash : String := ""
  observedTipHash : String := ""
  timer : Bool := false
  zmqTimer : Bool := false
  generation : ℕ := 0
  lastSuccessSteadyMs : ℕ := 0
  notificationSequence : ℕ := 0
  requestSequence : ℕ := 0
  zmqHeightRetries : ℕ := 0

inductive Output where
  | request (request : RequestMetadata)
  | fetch (kind : RequestKind) (requestId : ℕ)
  | completed (kind : RequestKind) (requestId : ℕ)
  | error (request : RequestMetadata) (message : String)
  | snapshot (snapshot : Snapshot)
  | notification (sequence : ℕ)
  | tipChanged (height : ℕ) (hash : String)
  | observeHeight (height : ℕ)
  | removeSource
  deriving DecidableEq

/-- What an event depends on besides the source: the clock, the refresh interval, and the
notifications in which a listener shuts the source down. -/
structure Env where
  now : ℕ := 0
  interval : ℕ := 1000
  shutsDown : Output → Bool := fun _ => false

def emit (o : Output) : Handler State Output := fun s => (s, [o])

def shutdown : Handler State Output := fun s =>
  if s.isShutdown then (s, [])
  else
    ({ s with
        isShutdown := true, started := false, heightFollowup := false, heightPending := false
        heightRetryFollowup := false, templatePending := false, timer := false
        zmqTimer := false, latest := none }, [.removeSource])

variable (env : Env)

/-- Tells the observer and the listeners. -/
def notify (o : Output) : Handler State Output :=
  seq (emit o) (if env.shutsDown o then shutdown else skip)

def reasonPriority : RefreshReason → ℕ
  | .zmq => 3
  | .initial => 2
  | .timer => 1

def requestTemplate (reason : RefreshReason) : Handler State Output := fun s =>
  if s.isShutdown then (s, [])
  else if s.templateInFlight then
    ({ s with
        pendingReason :=
          if !s.templatePending || reasonPriority s.pendingReason < reasonPriority reason then
            reason
          else s.pendingReason
        templatePending := true }, [])
  else
    let request : RequestMetadata :=
      ⟨.blockTemplate, reason, s.requestSequence + 1, s.generation + 1⟩
    seq (notify env (.request request))
      (fun s => if s.isShutdown then ({ s with templateInFlight := false }, [])
        else (s, [.fetch .blockTemplate request.requestId]))
      { s with
        templateInFlight := true
        templateRequest := request
        requestSequence := s.requestSequence + 1 }

/-- A height sampled before the active template is installed would compare against the old
parent, so a check is put off until the template completes. -/
def requestHeight (followup : Bool) : Handler State Output := fun s =>
  if s.isShutdown then (s, [])
  else if s.heightInFlight || s.templateInFlight then ({ s with heightPending := true }, [])
  else
    let request : RequestMetadata := ⟨.height, .zmq, s.requestSequence + 1, s.generation⟩
    seq (notify env (.request request))
      (fun s => if s.isShutdown then
        ({ s with heightInFlight := false, heightFollowup := false }, [])
        else (s, [.fetch .height request.requestId]))
      { s with
        heightInFlight := true
        heightFollowup := followup
        heightRequest := request
        requestSequence := s.requestSequence + 1 }

def drainHeightQueue (coveredByTemplate : Bool) : Handler State Output := fun s =>
  if s.isShutdown || !s.heightPending || s.heightInFlight || s.templateInFlight then (s, [])
  else requestHeight env coveredByTemplate { s with heightPending := false }

def drainTemplateQueue : Handler State Output := fun s =>
  if s.isShutdown || !s.templatePending || s.templateInFlight then (s, [])
  else
    let reason := s.pendingReason
    let s := { s with templatePending := false, pendingReason := .timer }
    if reason = .timer ∧ s.latest.isSome ∧ env.now < s.lastSuccessSteadyMs + env.interval then
      (s, [])
    else requestTemplate env reason s

def failTemplate (message : String) : Handler State Output := fun s =>
  seq (emit (.completed .blockTemplate s.templateRequest.requestId))
    (seq (notify env (.error s.templateRequest message))
      (seq (drainTemplateQueue env)
        (seq (drainHeightQueue env false) fun s =>
          (if !s.isShutdown && !s.templateInFlight && !s.templatePending then
            { s with timer := true } else s, []))))
    { s with templateInFlight := false }

def failHeight (message : String) : Handler State Output := fun s =>
  let followup := s.heightFollowup
  seq (emit (.completed .height s.heightRequest.requestId))
    (seq (notify env (.error s.heightRequest message)) fun s =>
      let s := { s with heightPending := false }
      if s.isShutdown then (s, [])
      else if s.zmqHeightRetries + 1 ≤ kMaxZmqHeightRetries then
        ({ s with
            zmqHeightRetries := s.zmqHeightRetries + 1
            heightRetryFollowup := followup
            zmqTimer := true }, [])
      else ({ s with zmqHeightRetries := 0, heightRetryFollowup := false }, []))
    { s with heightInFlight := false, heightFollowup := false }

def httpError (data : HttpData) : String :=
  if data.status < 0 then "HTTP transport error: " ++ data.statusText
  else "HTTP status " ++ toString data.status

/-- The checks on a template response: the fields of the snapshot, or what is wrong. -/
def parseTemplate (s : State) (data : HttpData) : Except String Snapshot :=
  if data.status ≠ 200 then .error (httpError data)
  else match data.body with
    | .error message => .error ("JSON decode failed: " ++ message)
    | .ok doc =>
        if doc.getInt64 "id" (-1) ≠ s.templateRequest.requestId then
          .error "Mismatched getblocktemplate response id"
        else
          let rpcError := doc.getObject "error"
          let result := doc.getObject "result"
          if rpcError.isObject then
            .error (rpcError.getString "message" "getblocktemplate RPC error")
          else if !result.isObject then .error "Missing getblocktemplate result"
          else
            let snapshot : Snapshot :=
              { blocktemplateBlob := result.getString "blocktemplate_blob" ""
                blockhashingBlob := result.getString "blockhashing_blob" ""
                seedHash := result.getString "seed_hash" ""
                nextSeedHash := result.getString "next_seed_hash" ""
                prevHash := result.getString "prev_hash" ""
                difficulty := result.getUint64 "difficulty" 0
                height := result.getUint64 "height" 0
                reservedOffset := result.getUint64 "reserved_offset" 0
                reserveSize := kReserveSize
                previousSeedHash := s.previousSeedHash
                generation := s.generation + 1
                fetchedSteadyMs := env.now
                request := { s.templateRequest with generation := s.generation + 1 } }
            if snapshot.blocktemplateBlob = "" ∨ snapshot.blockhashingBlob = "" ∨
                snapshot.prevHash = "" ∨ snapshot.difficulty = 0 ∨ snapshot.height = 0 ∨
                snapshot.reservedOffset = 0 ∨ snapshot.blocktemplateBlob.utf8ByteSize % 2 ≠ 0 ∨
                snapshot.blocktemplateBlob.utf8ByteSize / 2 <
                  (snapshot.reservedOffset + kReserveSize) % 2 ^ 64 then
              .error "Invalid or incomplete getblocktemplate result"
            else .ok snapshot

/-- The seed before the current one, which changes when a template brings a new seed. -/
def nextPreviousSeedHash (s : State) (snapshot : Snapshot) : String :=
  match s.latest with
  | some latest => if snapshot.seedHash ≠ latest.seedHash then latest.seedHash
      else s.previousSeedHash
  | none => s.previousSeedHash

def advancedCachedTip (s : State) (snapshot : Snapshot) : Bool :=
  s.latest.all fun latest => snapshot.prevHash ≠ latest.prevHash

def install (snapshot : Snapshot) : Handler State Output := fun s =>
  let previousSeedHash := nextPreviousSeedHash s snapshot
  let snapshot := { snapshot with previousSeedHash }
  let advanced := advancedCachedTip s snapshot
  seq (emit (.completed .blockTemplate s.templateRequest.requestId))
    (seq (notify env (.snapshot snapshot))
      (seq (fun s => (s, if s.isShutdown then [] else [.observeHeight snapshot.height]))
        (seq (drainTemplateQueue env) (drainHeightQueue env advanced))))
    { s with
      previousSeedHash := previousSeedHash
      generation := snapshot.generation
      templateRequest := snapshot.request
      templateInFlight := false
      lastSuccessSteadyMs := env.now
      observedTipHash := snapshot.prevHash
      latest := some snapshot
      timer := true }

def parseHeight (data : HttpData) : Except String (ℕ × String) :=
  if data.status ≠ 200 then .error (httpError data)
  else match data.body with
    | .error message => .error ("JSON decode failed: " ++ message)
    | .ok doc =>
        let daemonHeight := doc.getUint64 "height" 0
        let daemonHash := doc.getString "hash" ""
        if daemonHeight = 0 ∨ daemonHash = "" then .error "Invalid /getheight response"
        else .ok (daemonHeight, daemonHash)

/-- The daemon still reports the parent of the cached template. After a template that
already installed the tip this is final; otherwise the daemon may lag behind its own
notification, and it is asked again for a while. -/
def sameTip (followup heightPending : Bool) (s : State) : State :=
  if followup then
    let s := { s with zmqTimer := false, zmqHeightRetries := 0, heightRetryFollowup := false }
    if heightPending then { s with heightRetryFollowup := true, zmqTimer := true } else s
  else if s.zmqHeightRetries + 1 ≤ kMaxZmqHeightRetries then
    { s with
      zmqHeightRetries := s.zmqHeightRetries + 1
      heightRetryFollowup := false
      zmqTimer := true }
  else { s with zmqHeightRetries := 0, heightRetryFollowup := false }

def newTip (heightPending : Bool) (daemonHeight : ℕ) (daemonHash : String) :
    Handler State Output := fun s =>
  seq (notify env (.tipChanged daemonHeight daemonHash))
    (fun s => requestTemplate env .zmq { s with heightPending := heightPending })
    { s with
      zmqTimer := false
      zmqHeightRetries := 0
      heightRetryFollowup := false
      observedTipHash := daemonHash }

def compareHeight (daemonHeight : ℕ) (daemonHash : String) : Handler State Output := fun s =>
  let followup := s.heightFollowup
  let heightPending := s.heightPending
  seq (emit (.completed .height s.heightRequest.requestId))
    (fun s =>
      if s.latest.any fun latest => daemonHash = latest.prevHash then
        (sameTip followup heightPending s, [])
      else newTip env heightPending daemonHeight daemonHash s)
    { s with heightInFlight := false, heightFollowup := false, heightPending := false }

def onHttpData (kind : RequestKind) (rpcId : ℕ) (data : HttpData) : Handler State Output := fun s =>
  if s.isShutdown then (s, [])
  else match kind with
    | .blockTemplate =>
        if !s.templateInFlight || rpcId ≠ s.templateRequest.requestId then (s, [])
        else match parseTemplate env s data with
          | .error message => failTemplate env message s
          | .ok snapshot => install env snapshot s
    | .height =>
        if !s.heightInFlight || rpcId ≠ s.heightRequest.requestId then (s, [])
        else match parseHeight data with
          | .error message => failHeight env message s
          | .ok (daemonHeight, daemonHash) => compareHeight env daemonHeight daemonHash s

def notifyZmq : Handler State Output := fun s =>
  seq (notify env (.notification (s.notificationSequence + 1)))
    (fun s => if s.isShutdown then (s, [])
      else requestHeight env false
        { s with zmqTimer := false, zmqHeightRetries := 0, heightRetryFollowup := false })
    { s with notificationSequence := s.notificationSequence + 1 }

def start : Handler State Output := fun s =>
  if s.started || s.isShutdown then (s, [])
  else requestTemplate env .initial { s with started := true, timer := true }

inductive Event where
  | start
  | timer
  | zmqTimer
  | zmq
  | response (kind : RequestKind) (rpcId : ℕ) (data : HttpData)
  | shutdown

/-- A timer fires only while it is armed, and once. -/
def handle : Event → Handler State Output
  | .start => start env
  | .timer => fun s =>
      if s.isShutdown || !s.timer then (s, [])
      else requestTemplate env .timer { s with timer := false }
  | .zmqTimer => fun s =>
      if s.isShutdown || !s.zmqTimer then (s, [])
      else requestHeight env s.heightRetryFollowup { s with zmqTimer := false }
  | .zmq => fun s => if s.isShutdown then (s, []) else notifyZmq env s
  | .response kind rpcId data => onHttpData env kind rpcId data
  | .shutdown => shutdown

def machine : Machine State (Env × Event) Output where
  init := {}
  next s e := handle e.1 e.2 s

end XmrigProxy.DaemonTemplateSource
