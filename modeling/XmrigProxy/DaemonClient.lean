import XmrigProxy.Job
import XmrigProxy.Library.Retention

/-! The job contexts of a daemon client: everything that a later submission needs of the
template that a job was derived from. -/
namespace XmrigProxy.DaemonClient

structure JobContext where
  blocktemplate : String := ""
  entropy : String := ""
  jobId : String
  hasMinerSignature : Bool := false
  hasViewTag : Bool := false
  ephPublicKeyOffset : ℕ := 0
  extraNonceOffset : ℕ := 0
  nonceOffset : ℕ := 0
  signatureOffset : ℕ := 0
  txPublicKeyOffset : ℕ := 0
  createdSteadyMs : ℕ
  difficulty : ℕ := 0
  generation : ℕ := 0
  height : ℕ := 0
  sourceId : ℕ := 0
  deriving DecidableEq

def kJobHistorySize : ℕ := 6
def kJobHistoryMs : ℕ := 120000

inductive SocketState where
  | unconnected
  | connecting
  | connected
  deriving DecidableEq, Repr

structure State where
  id : ℕ
  state : SocketState := .unconnected
  contexts : List JobContext := []
  deriving DecidableEq

def findContext (jobId : String) (contexts : List JobContext) : Option JobContext :=
  contexts.find? fun context => context.jobId = jobId

def expired (now : ℕ) (context : JobContext) : Bool :=
  context.createdSteadyMs + kJobHistoryMs ≤ now

/-- Contexts leave from the back. The newest one stays whatever its age. -/
def trimContexts (now : ℕ) (contexts : List JobContext) : List JobContext :=
  match contexts.take kJobHistorySize with
  | [] => []
  | newest :: older => newest :: older.rdropWhile (expired now)

def connect (s : State) : State :=
  if s.state = .unconnected then { s with state := .connecting } else s

def disconnect (s : State) : State := { s with state := .unconnected, contexts := [] }

/-- The client keeps the context of a job that it has derived. -/
def installContext (now : ℕ) (context : JobContext) (s : State) : State :=
  { s with
    state := .connected
    contexts := trimContexts now (context :: s.contexts) }

def fresh (now : ℕ) (context : JobContext) : Bool :=
  now < context.createdSteadyMs + kJobHistoryMs

/-- Contexts are ordered by age, so the loop over the back keeps the fresh ones. -/
theorem trimContexts_eq_recent (now : ℕ) {contexts : List JobContext}
    (h : contexts.Pairwise fun a b => b.createdSteadyMs ≤ a.createdSteadyMs) :
    trimContexts now contexts = Retention.recent 5 (fresh now) contexts := by
  cases contexts with
  | nil => rfl
  | cons newest older =>
      have hsorted : (older.take 5).Pairwise fun a b =>
          expired now a = true → expired now b = true := by
        refine ((List.pairwise_cons.mp h).2.sublist (List.take_sublist 5 older)).imp
          fun hab ha => ?_
        simp only [expired, decide_eq_true_eq] at ha ⊢
        omega
      have hfresh : (fun context => !expired now context) = fresh now := by
        funext context
        simp [expired, fresh, ← decide_not]
      change newest :: (older.take 5).rdropWhile (expired now) = _
      rw [Retention.rdropWhile_eq_takeWhile hsorted, hfresh]
      rfl

end XmrigProxy.DaemonClient
