import Mathlib.Algebra.BigOperators.Intervals
import XmrigProxy.NonceMapper
import XmrigProxy.PoolClients
import XmrigProxy.SimpleMapper

/-! One mapper and its clients. A strategy hands a submission to one of them, or refuses it; an
answer reaches the mapper when the client waits for it. -/
namespace XmrigProxy

/-- What a mapper shows of its submissions. -/
structure MapperView (ε ω : Type) where
  joins : ε → MinerId → Prop
  leaves : ε → MinerId → Prop
  /-- A miner hands in a request. -/
  asks : ε → Option (MinerId × JobResult)
  /-- The miner, the id of its request, and what the client returned. -/
  submitted : ω → Option (MinerId × ℤ × ℤ)
  finished : ω → Option SubmitEvent
  accept : ω → Option (ℤ × Option MinerId)
  reply : ω → Option (MinerId × ℤ)

namespace MapperView

variable {σ ε ω : Type} (v : MapperView ε ω) (M : Machine σ ε ω) (es : ℕ → ε)

def Submits (j : ℕ) (miner : MinerId) (requestId seq : ℤ) : Prop :=
  ∃ o ∈ M.emitted es j, v.submitted o = some (miner, requestId, seq)

/-- The one submission before step `k` that the id was given to. -/
def Owns (k : ℕ) (miner : MinerId) (requestId seq : ℤ) : Prop :=
  ∃ j < k, v.Submits M es j miner requestId seq ∧
    ∀ i miner' requestId', v.Submits M es i miner' requestId' seq →
      i = j ∧ miner' = miner ∧ requestId' = requestId

def Left (k : ℕ) (miner : MinerId) : Prop :=
  ∃ i < k, v.leaves (es i) miner ∧ ∀ l, i < l → l < k → ¬ v.joins (es l) miner

/-- What step `k` credits and replies goes to the submitter, who has not left. -/
structure CreditsSubmitter (k : ℕ) : Prop where
  accept : ∀ o ∈ M.emitted es k, ∀ seq miner, v.accept o = some (seq, some miner) →
    (∃ requestId, v.Owns M es k miner requestId seq) ∧ ¬ v.Left es k miner
  reply : ∀ o ∈ M.emitted es k, ∀ miner requestId, v.reply o = some (miner, requestId) →
    ∃ seq, (∃ o' ∈ M.emitted es k, v.accept o' = some (seq, some miner)) ∧
      v.Owns M es k miner requestId seq

/-- The number of replies that a step makes to the result with this id. -/
def repliesTo (seq : ℤ) (out : List ω) : ℕ :=
  if out.any fun o => (v.accept o).any fun result => result.1 = seq then
    (out.filterMap v.reply).length
  else 0

/-- Every request that a served miner hands in leaves once, with an error, or with an id to which at
most one reply is made. -/
def AnswersSubmissions (serves : ℕ → MinerId → Prop) (k : ℕ) : Prop :=
  ∀ j < k, ∀ miner request, v.asks (es j) = some (miner, request) → serves j miner →
    ∃ error, (M.emitted es j).filterMap v.finished = [⟨miner, request, error⟩] ∧
      (error ≠ .NoError ∨ ∃ seq, 0 ≤ seq ∧ v.Submits M es j miner request.id seq ∧
        ∑ i ∈ Finset.range k, v.repliesTo seq (M.emitted es i) ≤ 1)

end MapperView

/-- A mapper with its clients. -/
structure Served (μ : Type) where
  mapper : μ
  clients : PoolClients.State := {}

namespace Served

variable {μ ε ω : Type} (operation : Served μ → ε → PoolClients.Operation)
  (react : List PoolClients.Report → ε → Handler μ ω)

/-- The clients act first; the mapper is told what they report. -/
def step (s : Served μ) (e : ε) : Served μ × List ω :=
  let (clients, reports) := PoolClients.step (operation s e) s.clients
  let (mapper, out) := react reports e s.mapper
  ({ mapper, clients }, out)

def machine (mapper : μ) : Machine (Served μ) ε ω where
  init := { mapper }
  next := step operation react

/-- The operations of the clients in a run. -/
def operations (mapper : μ) (es : ℕ → ε) (k : ℕ) : PoolClients.Operation :=
  operation ((machine operation react mapper).state es k) (es k)

/-- What the clients report in step `k`. -/
def reports (mapper : μ) (es : ℕ → ε) (k : ℕ) : List PoolClients.Report :=
  PoolClients.machine.emitted (operations operation react mapper es) k

variable {operation react} {mapper : μ} {es : ℕ → ε} {k : ℕ}

theorem clients_state : ((machine operation react mapper).state es k).clients =
    PoolClients.machine.state (operations operation react mapper es) k := by
  induction k with
  | zero => rfl
  | succ k ih =>
      rw [Machine.state_succ, Machine.state_succ, ← ih]
      rfl

theorem reports_eq : reports operation react mapper es k =
    (PoolClients.step (operations operation react mapper es k)
      ((machine operation react mapper).state es k).clients).2 := by
  rw [clients_state]
  rfl

theorem mapper_succ : ((machine operation react mapper).state es (k + 1)).mapper =
    (react (reports operation react mapper es k) (es k)
      ((machine operation react mapper).state es k).mapper).1 := by
  rw [reports_eq]
  rfl

theorem emitted_eq : (machine operation react mapper).emitted es k =
    (react (reports operation react mapper es k) (es k)
      ((machine operation react mapper).state es k).mapper).2 := by
  rw [reports_eq]
  rfl

theorem returned_others {count : ℕ}
    (hop : operations operation react mapper es k = .others count) :
    PoolClients.returned (reports operation react mapper es k) = -1 := by
  rw [reports_eq, hop]
  rfl

/-- What a submission returns: an id, if its client could send it. -/
theorem returned_submit {c : ℕ} {requestId : ℤ} {written : Bool}
    (hop : operations operation react mapper es k = .submit c requestId written) :
    if (((machine operation react mapper).state es k).clients.clients c).connected = true ∧
        written = true then
      PoolClients.Assigned (operations operation react mapper es) k c
        (PoolClients.returned (reports operation react mapper es k)) requestId
    else PoolClients.returned (reports operation react mapper es k) = -1 := by
  have hreports : reports operation react mapper es k = (PoolClients.submit c requestId written
      ((machine operation react mapper).state es k).clients).2 := by
    rw [reports_eq, hop]
    rfl
  split
  · next hsent =>
    have hone : reports operation react mapper es k = [.assigned c
        ((machine operation react mapper).state es k).clients.sequence requestId] := by
      rw [hreports]
      simp [PoolClients.submit, hsent.1, hsent.2]
    change _ ∈ reports operation react mapper es k
    rw [hone]
    exact List.mem_singleton.mpr rfl
  · next hunsent =>
    rw [← Bool.and_eq_true] at hunsent
    rw [hreports]
    simp only [PoolClients.submit, hunsent]
    rfl

/-- An answer that is reported is delivered to the client that waits for it. -/
theorem delivered_of_answer {c : ℕ} {seq : ℤ}
    (hop : operations operation react mapper es k = .answer c seq) :
    reports operation react mapper es k = [] ∨
      ∃ requestId, reports operation react mapper es k = [.delivered c seq requestId] ∧
        PoolClients.Delivered (operations operation react mapper es) k c seq requestId := by
  have hreports : reports operation react mapper es k = (PoolClients.answer c seq
      ((machine operation react mapper).state es k).clients).2 := by
    rw [reports_eq, hop]
    rfl
  unfold PoolClients.answer at hreports
  split at hreports
  · exact Or.inl hreports
  · next requestId _ =>
    split at hreports
    · refine Or.inr ⟨requestId, hreports, ?_⟩
      change _ ∈ reports operation react mapper es k
      rw [hreports]
      exact List.mem_singleton.mpr rfl
    · exact Or.inl hreports

end Served

namespace UpstreamMapper

/-- The mappers of the nicehash and the extra-nonce mode. -/
structure Kind (σ : Type) where
  ops : MinerStorage σ
  gc : Bool → Handler (State σ) Output

def nonceKind : Kind NonceStorage.State := ⟨NonceStorage.ops, NonceMapper.gc⟩

def extraNonceKind : Kind ExtraNonceStorage.State :=
  ⟨ExtraNonceStorage.ops, fun _ => ExtraNonceMapper.gc⟩

abbrev System (σ : Type) := Served (State σ)

/-- A submission names the client of the chosen strategy, if it has one that takes requests. -/
inductive Event where
  | start
  | add (miner : MinerId)
  | remove (miner : MinerId)
  | submit (miner : MinerId) (request : JobResult) (client : Option ℕ) (written : Bool)
  | pool (client : ℕ) (event : PoolEvent)
  | login (client : ℕ)
  | close (client : ℕ)
  | others (count : ℕ)
  | tick
  | gc (paused : Bool)

variable {σ : Type} (kind : Kind σ) (config : DonateStrategy.Config)

/-- What a step asks of the clients. -/
def operation (s : System σ) : Event → PoolClients.Operation
  | .submit miner request (some client) written =>
      match checkSubmit kind.ops ⟨miner, request, .NoError⟩ s.mapper with
      | .ok request => .submit client request.id written
      | .error _ => .others 0
  | .pool client (.result _ seq _) => .answer client seq
  | .login client => .login client
  | .close client => .close client
  | .others count => .others count
  | _ => .others 0

/-- What the mapper makes of a step, and of what the clients reported. -/
def react (reports : List PoolClients.Report) : Event → Handler (State σ) Output
  | .start => connect
  | .add miner => fun s => (add kind.ops miner s).getD (s, [])
  | .remove miner => fun s => (remove kind.ops miner s, [])
  | .submit miner request _ _ =>
      submit kind.ops ⟨miner, request, .NoError⟩ (PoolClients.returned reports)
  | .pool _ (.result toDonate seq error) =>
      if reports = [] then Handler.skip else onResultAccepted kind.ops toDonate seq error
  | .pool _ event => onPoolEvent kind.ops config event
  | .login _ | .close _ | .others _ => Handler.skip
  | .tick => tick kind.ops config
  | .gc paused => kind.gc paused

def machine (mapper : State σ) : Machine (System σ) Event Output :=
  Served.machine (operation kind) (react kind config) mapper

def view : MapperView Event Output where
  joins e miner := e = .add miner
  leaves e miner := e = .remove miner
  asks
    | .submit miner request _ _ => some (miner, request)
    | _ => none
  submitted
    | .submitted _ miner request seq => some (miner, request.id, seq)
    | _ => none
  finished
    | .finished event => some event
    | _ => none
  accept
    | .accept _ seq miner _ _ => some (seq, miner)
    | _ => none
  reply
    | .reply miner requestId _ => some (miner, requestId)
    | _ => none

/-- The client refuses a submission that the mapper hands on. -/
def Refuses (s : System σ) : Event → Prop
  | .submit miner request client written =>
      (∃ checked, checkSubmit kind.ops ⟨miner, request, .NoError⟩ s.mapper = .ok checked) ∧
        ∀ c, client = some c → ¬ ((s.clients.clients c).connected = true ∧ written = true)
  | _ => False

/-- A key of the table is the id of a request that was sent, and no other submission used it. -/
structure SoundTable (mapper : State σ) (es : ℕ → Event) (k : ℕ) : Prop where
  sent : ∀ i ≤ k, ∀ seq ctx, ((machine kind config mapper).state es i).mapper.results.find seq =
    some ctx → 0 ≤ seq ∧ view.Owns (machine kind config mapper) es i ctx.minerId ctx.id seq
  fresh : ∀ j < k, ∀ miner requestId seq,
    view.Submits (machine kind config mapper) es j miner requestId seq →
      ((machine kind config mapper).state es j).mapper.results.find seq = none

end UpstreamMapper

namespace SimpleMapper

abbrev System := Served State

inductive Event where
  | remove (miner : MinerId)
  | reuse (miner : MinerId)
  | submit (miner : MinerId) (request : JobResult) (client : Option ℕ) (written : Bool)
  | pool (client : ℕ) (event : PoolEvent)
  | login (client : ℕ)
  | close (client : ℕ)
  | others (count : ℕ)
  | tick
  | reload
  | stop

/-- What a step asks of the clients. The splitter hands a mapper only what its miner submits. -/
def operation (s : System) (e : ℕ × Event) : PoolClients.Operation :=
  match e.2 with
  | .submit miner request (some client) written =>
      if s.mapper.miner = some miner then
        match checkSubmit e.1 ⟨miner, request, .NoError⟩ s.mapper with
        | .ok (_, request) => .submit client request.id written
        | .error _ => .others 0
      else .others 0
  | .pool client (.result seq _ _ _) => .answer client seq
  | .login client => .login client
  | .close client => .close client
  | .others count => .others count
  | _ => .others 0

/-- The request id of a result is the one that was recorded when it was sent. -/
def deliver (reports : List PoolClients.Report) (ambiguous : Bool) (error : Option String) :
    Handler State Output :=
  match reports with
  | .delivered _ seq requestId :: _ => onResultAccepted seq requestId ambiguous error
  | _ => Handler.skip

/-- What the mapper makes of a step, and of what the clients reported. The splitter hands on a
mapper that is reusable. -/
def react (reports : List PoolClients.Report) (e : ℕ × Event) : Handler State Output :=
  match e.2 with
  | .remove miner => fun s => (if s.miner = some miner then remove s else s, [])
  | .reuse miner => fun s => if isReusable s then reuse miner s else (s, [])
  | .submit miner request _ _ => fun s =>
      if s.miner = some miner then
        submit e.1 ⟨miner, request, .NoError⟩ (PoolClients.returned reports) s
      else (s, [])
  | .pool _ (.result _ _ ambiguous error) => deliver reports ambiguous error
  | .pool _ event => onPoolEvent e.1 event
  | .login _ | .close _ | .others _ => Handler.skip
  | .tick => fun s => (tick s, [])
  | .reload => reload
  | .stop => stop

/-- A mapper is made for its first miner. -/
def machine (id : ℕ) (first : MinerId) : Machine System (ℕ × Event) Output :=
  Served.machine operation react (add first { id }).1

def view : MapperView (ℕ × Event) Output where
  joins e miner := e.2 = .reuse miner
  leaves e miner := e.2 = .remove miner
  asks e := match e.2 with
    | .submit miner request _ _ => some (miner, request)
    | _ => none
  submitted
    | .submitted _ miner request seq => some (miner, request.id, seq)
    | _ => none
  finished
    | .finished event => some event
    | _ => none
  accept
    | .accept _ seq miner _ => some (seq, miner)
    | _ => none
  reply
    | .reply miner requestId _ => some (miner, requestId)
    | _ => none

/-- The mapper was made for the miner, or handed to it while it was free, and the miner has not
left. -/
def Serves (id : ℕ) (first : MinerId) (es : ℕ → ℕ × Event) (k : ℕ) (miner : MinerId) : Prop :=
  (miner = first ∧ ∀ l < k, (es l).2 ≠ .remove miner) ∨
    ∃ i < k, (es i).2 = .reuse miner ∧ isReusable ((machine id first).state es i).mapper = true ∧
      ∀ l, i < l → l < k → (es l).2 ≠ .remove miner

/-- The mapper is handed to another miner only when no answer is outstanding. -/
def HandedOverIdle (s : System) (e : ℕ × Event) : Prop :=
  ∀ miner, e.2 = .reuse miner → ∀ c seq requestId, ¬ PoolClients.Waits s.clients c seq requestId

end SimpleMapper

end XmrigProxy
