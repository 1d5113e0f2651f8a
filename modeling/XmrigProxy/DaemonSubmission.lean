import XmrigProxy.Library.Json
import XmrigProxy.Library.Machine
import XmrigProxy.Library.Table

/-! The block submissions of a daemon client. Every attempt is an RPC request with an id
of its own, while the result keeps the id of the first one. A tick starts the attempts
whose retry is due, and a response is delivered by the HTTP layer at most once per
request. Rows published to the event stream are omitted. -/
namespace XmrigProxy.DaemonSubmission

inductive SubmitOutcome where
  | unspecified
  | accepted
  | rejected
  | ambiguous
  deriving DecidableEq, Repr

structure SubmitResult where
  seq : ℕ
  diff : ℕ
  actualDiff : ℕ
  reqId : ℤ
  shareId : ℕ
  jobId : String
  templateGeneration : ℕ
  height : ℕ
  entropy : String
  templateSourceId : ℕ
  minerDiff : ℕ
  outcome : SubmitOutcome := .unspecified
  deriving DecidableEq, Repr

section Reconciliation

def maxSubmitAttempts : ℕ := 4
def retryDelayMs : ℕ := 2000

inductive Decision where
  | accepted
  | rejected (reason : String) (code : ℤ)
  | indeterminate (reason : String)
  deriving DecidableEq, Repr

def hasRemainingSubmitAttempts (attempts : ℕ) : Bool := attempts < maxSubmitAttempts

def nextSubmitAttemptAt (now : ℕ) : ℕ := now + retryDelayMs

def isSubmitRetryDue (retryAt now : ℕ) : Bool := retryAt ≠ 0 && retryAt ≤ now

def classifySubmitResult (result : Json) : Decision :=
  if !result.isObject then .indeterminate "Invalid submitblock response"
  else match result.text "status" with
    | none => .indeterminate "Missing or invalid submitblock status"
    | some status =>
        if status = "" then .indeterminate "Missing or invalid submitblock status"
        else if status ≠ "OK" then .rejected ("submitblock status: " ++ status) 0
        else .accepted

end Reconciliation

/-- A response as the HTTP layer hands it over: a status (negative for a transport
error, with its text) and a body, parsed or with the parser's message. -/
structure HttpData where
  status : ℤ
  statusText : String := ""
  body : Except String Json

/-- The decision of the response handler about the request `rpcId`. -/
def decision (rpcId : ℕ) (data : HttpData) : Decision :=
  if data.status ≠ 200 then
    .indeterminate (if data.status < 0 then "transport error: " ++ data.statusText
      else "HTTP " ++ toString data.status)
  else match data.body with
    | .error message => .indeterminate ("JSON decode failed: " ++ message)
    | .ok doc =>
        if doc.getInt64 "id" (-1) ≠ rpcId then
          .indeterminate "Mismatched submitblock response id"
        else
          let error := doc.getObject "error"
          if error.isObject then
            match error.text "message" with
            | none =>
                .indeterminate "Missing, invalid, or embedded-NUL submitblock error message"
            | some message => .rejected message (error.getInt64 "code" 0)
          else classifySubmitResult (doc.getObject "result")

structure PendingSubmission where
  result : SubmitResult
  blockBlob : String
  attempts : ℕ := 1
  retryDueMs : ℕ := 0
  attemptStartedMs : ℕ
  hadIndeterminateOutcome : Bool := false
  lastSubmitError : String := ""
  deriving DecidableEq, Repr

structure State where
  sequence : ℕ := 1
  pendingSubmissions : Table ℕ PendingSubmission := ∅

inductive Answer where
  | ok
  | rejected
  | indeterminate
  deriving DecidableEq, Repr

def Decision.answer : Decision → Answer
  | .accepted => .ok
  | .rejected _ _ => .rejected
  | .indeterminate _ => .indeterminate

/-- `attempt` is a request handed to the HTTP layer, `returned` the response to one, and
`reported` a call of the listener's `onResultAccepted`. -/
inductive Output where
  | attempt (seq id : ℕ) (blob : String) (start : ℕ)
  | returned (seq id : ℕ) (answer : Answer)
  | reported (result : SubmitResult) (error : Option String)
  deriving DecidableEq, Repr

/-- The block a submission is about, after the template was patched and parsed. -/
structure Block where
  result : SubmitResult
  blob : String
  deriving DecidableEq, Repr

/-- The end of `submit`; `none` stands for one of its refusals before that point. -/
def submit (now : ℕ) (block : Option Block) (s : State) : Option ℕ × State × List Output :=
  match block with
  | none => (none, s, [])
  | some block =>
      let requestId := s.sequence
      let result := { block.result with seq := requestId, outcome := .unspecified }
      (some requestId,
        ⟨requestId + 1, s.pendingSubmissions.insert requestId
          { result := result, blockBlob := block.blob, attemptStartedMs := now }⟩,
        [.attempt requestId requestId block.blob now])

def finalizeSubmission (id : ℕ) (outcome : SubmitOutcome) (message : Option String) (s : State) :
    State × List Output :=
  match s.pendingSubmissions.find id with
  | none => (s, [])
  | some submission =>
      let minerError := if outcome = .accepted then none
        else some (message.getD "submitblock outcome ambiguous")
      ({ s with pendingSubmissions := s.pendingSubmissions.erase id },
        [.reported { submission.result with outcome := outcome } minerError])

/-- Schedules the next attempt, or finishes with `rejected` only if no attempt was
indeterminate. -/
def retryOrFinalizeSubmission (now id : ℕ) (outcome : SubmitOutcome) (reason : String) (s : State) :
    State × List Output :=
  match s.pendingSubmissions.find id with
  | none => (s, [])
  | some pending =>
      let pending := { pending with
        lastSubmitError := reason
        hadIndeterminateOutcome := pending.hadIndeterminateOutcome || outcome = .ambiguous }
      if hasRemainingSubmitAttempts pending.attempts then
        let pending := { pending with retryDueMs := nextSubmitAttemptAt now }
        ({ s with pendingSubmissions := s.pendingSubmissions.insert id pending }, [])
      else
        let final : SubmitOutcome :=
          if pending.hadIndeterminateOutcome then .ambiguous else .rejected
        let message := (if final = .rejected then "submitblock rejected after "
          else "submitblock outcome ambiguous after ") ++ toString pending.attempts ++
            " attempts; last response: " ++ reason
        finalizeSubmission id final message
          { s with pendingSubmissions := s.pendingSubmissions.insert id pending }

def onHttpData (now rpcId : ℕ) (data : HttpData) (s : State) : State × List Output :=
  match s.pendingSubmissions.find rpcId with
  | none => (s, [])
  | some pending =>
      let decided := decision rpcId data
      let settled := match decided with
        | .accepted => finalizeSubmission rpcId .accepted none s
        | .rejected reason _ => retryOrFinalizeSubmission now rpcId .rejected reason s
        | .indeterminate reason => retryOrFinalizeSubmission now rpcId .ambiguous reason s
      (settled.1, .returned pending.result.seq rpcId decided.answer :: settled.2)

def retrySubmission (now id : ℕ) (s : State) : State × List Output :=
  match s.pendingSubmissions.find id with
  | none => (s, [])
  | some submission =>
      if submission.retryDueMs = 0 || !hasRemainingSubmitAttempts submission.attempts then (s, [])
      else
        let requestId := s.sequence
        let next : PendingSubmission := { submission with
          attempts := submission.attempts + 1
          retryDueMs := 0
          attemptStartedMs := now }
        (⟨requestId + 1, (s.pendingSubmissions.erase id).insert requestId next⟩,
          [.attempt submission.result.seq requestId submission.blockBlob now])

def tick (now : ℕ) (s : State) : State × List Output :=
  Handler.forEach (retrySubmission now)
    ((s.pendingSubmissions.filter fun _ p => isSubmitRetryDue p.retryDueMs now).keys) s

/-- A live disconnect completes every submission before it forgets it. -/
def disconnect (s : State) : State × List Output :=
  Handler.forEach (fun id => finalizeSubmission id .ambiguous
    "daemon client disconnected before submitblock outcome was known")
    s.pendingSubmissions.keys s

section Runs

inductive Event where
  | submit (block : Option Block)
  | response (id : ℕ) (data : HttpData)
  | tick
  | disconnect
  | destroy
  | otherRequests (count : ℕ)

/-- A client with its clock, the requests whose response the HTTP layer has already
delivered, and whether it still exists. The request ids are shared with other clients. -/
structure System where
  client : State := {}
  now : ℕ := 0
  answered : List ℕ := []
  live : Bool := true

/-- One event, `elapsed` milliseconds after the previous one. -/
def step (sys : System) (e : ℕ × Event) : System × List Output :=
  if !sys.live then (sys, [])
  else
    let now := sys.now + e.1
    let act := match e.2 with
      | .submit block => (submit now block sys.client).2
      | .response id data =>
          if id ∈ sys.answered then (sys.client, []) else onHttpData now id data sys.client
      | .tick => tick now sys.client
      | .disconnect => disconnect sys.client
      | .destroy => ({ sys.client with pendingSubmissions := ∅ }, [])
      | .otherRequests count => ({ sys.client with sequence := sys.client.sequence + count }, [])
    let answered := match e.2 with
      | .response id _ => id :: sys.answered
      | _ => sys.answered
    let live := match e.2 with
      | .destroy => false
      | _ => true
    (⟨act.1, now, answered, live⟩, act.2)

def machine : Machine System (ℕ × Event) Output := ⟨{}, step⟩

end Runs

end XmrigProxy.DaemonSubmission
