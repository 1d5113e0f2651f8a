import XmrigProxy.Library.Machine
import XmrigProxy.PublicationOrder

/-! The subscribers of the event stream. Each of them has a queue of writes of bounded size, and is
disconnected when it does not read fast enough. What was handed to its socket is a ghost log. -/
namespace XmrigProxy.LiveEventStream

def kMaxClients : ℕ := 5

/-- `unfinished` are the write requests that the socket has not completed, the oldest first; `since`
is the number of rows that were broadcast before the subscriber came. -/
structure Subscriber where
  closing : Bool := false
  pendingBytes : ℕ := 0
  unfinished : List Text := []
  written : List Text := []
  since : ℕ := 0
  deriving DecidableEq

/-- A write that is queued. -/
def Subscriber.enqueue (data : Text) (c : Subscriber) : Subscriber :=
  { c with
    pendingBytes := c.pendingBytes + data.length
    unfinished := c.unfinished ++ [data]
    written := c.written ++ [data] }

inductive WriteOutcome where
  | queued
  | unwritable
  | failed
  deriving DecidableEq, Repr

/-- The clock at the number of a row, and what becomes of a write to a subscriber that was handed so
many before. -/
structure Env where
  now : ℕ → Clock
  socket : ℕ → ℕ → WriteOutcome := fun _ _ => .queued

structure Server where
  streamId : Text
  running : Bool := true
  eventSequence : ℕ := 0
  preLoginJobs : Int64 → Option (List Row) := fun _ => none
  /-- The subscribers that rows are sent to. -/
  clients : List ℕ := []
  subscribers : ℕ → Subscriber := fun _ => {}
  nextId : ℕ := 0
  /-- All that was broadcast; nothing reads it. -/
  broadcasts : List Emission := []

namespace Server

variable (env : Env)

def setSubscriber (id : ℕ) (client : Subscriber) (s : Server) : Server :=
  { s with subscribers := Function.update s.subscribers id client }

def closeClient (id : ℕ) (s : Server) : Server :=
  if (s.subscribers id).closing then s
  else
    { setSubscriber id { s.subscribers id with closing := true } s with
      clients := s.clients.erase id }

def write (id : ℕ) (data : Text) (s : Server) : Server :=
  let client := s.subscribers id
  let outcome := env.socket id client.written.length
  if client.closing ∨ data = [] ∨ outcome = .unwritable then closeClient id s
  else if maxPendingBytesPerClient < data.length ∨
      maxPendingBytesPerClient - data.length < client.pendingBytes then closeClient id s
  else if outcome = .failed then closeClient id s
  else setSubscriber id (client.enqueue data) s

/-- Those who are subscribed when the row is broadcast, whoever is disconnected meanwhile. -/
def writeAll (ids : List ℕ) (data : Text) (s : Server) : Server :=
  ids.foldl (fun s id => write env id data s) s

def broadcast (row : Row) (s : Server) : Server :=
  if row.event = [] then s
  else
    let sequence := s.eventSequence + 1
    let emission : Emission := ⟨sequence, env.now sequence, row⟩
    writeAll env s.clients (emission.line s.streamId)
      { s with
        eventSequence := sequence
        broadcasts := s.broadcasts ++ [emission] }

def setPending (minerId : Int64) (jobs : Option (List Row)) (s : Server) : Server :=
  { s with preLoginJobs := Function.update s.preLoginJobs minerId jobs }

def publishOrdered (row : Row) (s : Server) : Server :=
  match row.minerId with
  | none => broadcast env row s
  | some minerId =>
      if row.event = bytes "worker_connected" then
        broadcast env row (setPending minerId (some []) s)
      else if row.event = bytes "job_sent" ∧ (s.preLoginJobs minerId).isSome then
        setPending minerId ((s.preLoginJobs minerId).map (· ++ [row])) s
      else if row.event = bytes "worker_login" then
        let s := broadcast env row s
        let jobs := if row.status = bytes "accepted" then (s.preLoginJobs minerId).getD [] else []
        jobs.foldl (fun s job => broadcast env job s) (setPending minerId none s)
      else if row.event = bytes "worker_disconnected" then
        broadcast env row (setPending minerId none s)
      else broadcast env row s

def publish (row : Row) (s : Server) : Server := if s.running then publishOrdered env row s else s

def connected (s : Server) : Server :=
  { setSubscriber s.nextId { since := s.broadcasts.length } s with nextId := s.nextId + 1 }

def subscribed (s : Server) : Server := { connected s with clients := s.clients ++ [s.nextId] }

/-- A new subscriber gets the header, unless there are enough or its socket cannot be read. -/
def accept (readable : Bool) (s : Server) : Server :=
  if !s.running then s
  else if kMaxClients ≤ s.clients.length then closeClient s.nextId (connected s)
  else if readable then write env s.nextId csvHeader (subscribed s)
  else closeClient s.nextId (subscribed s)

/-- The oldest write of a subscriber is complete. -/
def onWrite (id : ℕ) (succeeded : Bool) (s : Server) : Server :=
  match (s.subscribers id).unfinished with
  | [] => s
  | data :: rest =>
      let client := s.subscribers id
      let size := data.length
      let s := setSubscriber id
        { client with
          pendingBytes := if size ≤ client.pendingBytes then client.pendingBytes - size else 0
          unfinished := rest } s
      if succeeded then s else closeClient id s

/-- Whatever a subscriber sends, it is disconnected. -/
def onRead (id : ℕ) (s : Server) : Server := if id ∈ s.clients then closeClient id s else s

def stop (s : Server) : Server :=
  s.clients.reverse.foldl (fun s id => closeClient id s)
    { s with
      running := false
      preLoginJobs := fun _ => none }

end Server

inductive Happening where
  | accept (readable : Bool)
  | publish (row : Row)
  | onWrite (id : ℕ) (succeeded : Bool)
  | onRead (id : ℕ)
  | stop

namespace Server

def step (env : Env) : Happening → Server → Server
  | .accept readable => accept env readable
  | .publish row => publish env row
  | .onWrite id succeeded => onWrite id succeeded
  | .onRead id => onRead id
  | .stop => stop

/-- The sockets may do something else in every step. -/
def machine (streamId : Text) : Machine Server (Env × Happening) Empty where
  init := { streamId }
  next s e := (s.step e.1 e.2, [])

end Server

/-! ### What a subscriber is handed -/

/-- The header, and then the lines of so many rows, one after another. -/
def handed (streamId : Text) (broadcasts : List Emission) (since count : ℕ) : List Text :=
  csvHeader :: ((broadcasts.drop since).take count).map (Emission.line streamId)

/-- A subscriber that is refused gets nothing at all. -/
structure Tracks (streamId : Text) (broadcasts : List Emission) (c : Subscriber) : Prop where
  log : c.written = [] ∨ ∃ count, c.since + count ≤ broadcasts.length ∧
    c.written = handed streamId broadcasts c.since count
  queue : c.unfinished <:+ c.written
  pending : c.pendingBytes = (c.unfinished.map List.length).sum
  bound : c.pendingBytes ≤ maxPendingBytesPerClient
  sizes : ∀ data ∈ c.written, data.length ≤ maxPendingBytesPerClient

/-- Nothing that was broadcast since is missing. -/
structure UpToDate (streamId : Text) (broadcasts : List Emission) (c : Subscriber) : Prop where
  since_le : c.since ≤ broadcasts.length
  written : c.written = handed streamId broadcasts c.since (broadcasts.length - c.since)

section Subscriber

variable {streamId data : Text} {broadcasts : List Emission} {c : Subscriber} {e : Emission}

@[simp] theorem enqueue_written : (c.enqueue data).written = c.written ++ [data] := rfl

@[simp] theorem enqueue_since : (c.enqueue data).since = c.since := rfl

@[simp] theorem enqueue_closing : (c.enqueue data).closing = c.closing := rfl

theorem handed_append {since count : ℕ} (hcount : since + count ≤ broadcasts.length) :
    handed streamId (broadcasts ++ [e]) since count = handed streamId broadcasts since count := by
  unfold handed
  rw [List.drop_append_of_le_length (by omega), List.take_append_of_le_length]
  rw [List.length_drop]
  omega

theorem handed_succ {since : ℕ} (hsince : since ≤ broadcasts.length) :
    handed streamId (broadcasts ++ [e]) since ((broadcasts ++ [e]).length - since) =
      handed streamId broadcasts since (broadcasts.length - since) ++ [e.line streamId] := by
  unfold handed
  rw [List.drop_append_of_le_length hsince, List.take_of_length_le, List.take_of_length_le,
    List.map_append]
  · rfl
  · rw [List.length_drop]
  · rw [List.length_append, List.length_append, List.length_drop]
    omega

theorem Tracks.fresh {since : ℕ} : Tracks streamId broadcasts { since } :=
  ⟨Or.inl rfl, List.suffix_rfl, rfl, Nat.zero_le _, fun _ hdata => absurd hdata List.not_mem_nil⟩

theorem Tracks.withClosing (h : Tracks streamId broadcasts c) (closing : Bool) :
    Tracks streamId broadcasts { c with closing } :=
  ⟨h.log, h.queue, h.pending, h.bound, h.sizes⟩

/-- A row that is broadcast leaves what was handed over before. -/
theorem Tracks.extend (h : Tracks streamId broadcasts c) :
    Tracks streamId (broadcasts ++ [e]) c := by
  refine ⟨?_, h.queue, h.pending, h.bound, h.sizes⟩
  rcases h.log with hnone | ⟨count, hcount, hlog⟩
  · exact Or.inl hnone
  · refine Or.inr ⟨count, ?_, ?_⟩
    · rw [List.length_append]
      omega
    · rw [hlog, handed_append hcount]

/-- The queue of a subscriber that was handed one thing more. -/
theorem Tracks.enqueue (h : Tracks streamId broadcasts c)
    (hfits : c.pendingBytes + data.length ≤ maxPendingBytesPerClient)
    (hnext : UpToDate streamId broadcasts (c.enqueue data)) :
    Tracks streamId broadcasts (c.enqueue data) := by
  have hsince := hnext.since_le
  refine ⟨Or.inr ⟨_, by omega, hnext.written⟩, ?_, ?_, hfits, ?_⟩
  · obtain ⟨done, hdone⟩ := h.queue
    refine ⟨done, ?_⟩
    rw [enqueue_written, ← hdone, List.append_assoc]
    rfl
  · have hsum : ((c.unfinished ++ [data]).map List.length).sum =
        (c.unfinished.map List.length).sum + data.length := by simp
    rw [← h.pending] at hsum
    exact hsum.symm
  · intro other hother
    rw [enqueue_written] at hother
    rcases List.mem_append.mp hother with hother | hother
    · exact h.sizes other hother
    · rw [List.mem_singleton.mp hother]
      omega

theorem UpToDate.enqueue (h : UpToDate streamId broadcasts c) :
    UpToDate streamId (broadcasts ++ [e]) (c.enqueue (e.line streamId)) := by
  have hsince := h.since_le
  refine ⟨?_, ?_⟩
  · rw [enqueue_since, List.length_append]
    omega
  · rw [enqueue_written, enqueue_since, h.written, handed_succ hsince]

/-- The first thing that a subscriber gets. -/
theorem UpToDate.header : UpToDate streamId broadcasts
    (Subscriber.enqueue csvHeader { since := broadcasts.length }) := by
  refine ⟨le_rfl, ?_⟩
  rw [enqueue_written, enqueue_since, Nat.sub_self]
  unfold handed
  rw [List.take_zero]
  rfl

/-- The subscriber when its oldest write is complete. -/
theorem Tracks.finish {rest : List Text} (h : Tracks streamId broadcasts c)
    (hunfinished : c.unfinished = data :: rest) :
    Tracks streamId broadcasts
      { c with
        pendingBytes := if data.length ≤ c.pendingBytes then c.pendingBytes - data.length else 0
        unfinished := rest } := by
  have hsum : c.pendingBytes = data.length + (rest.map List.length).sum := by
    rw [h.pending, hunfinished, List.map_cons, List.sum_cons]
  have hbound := h.bound
  rw [if_pos (by omega)]
  refine ⟨h.log, ?_, ?_, ?_, h.sizes⟩
  · obtain ⟨done, hdone⟩ := h.queue
    refine ⟨done ++ [data], ?_⟩
    rw [← hdone, hunfinished, List.append_assoc, List.singleton_append]
  · dsimp only
    omega
  · dsimp only
    omega

end Subscriber

/-! ### The server -/

/-- Of the rows, only the order in which they are sent. -/
def Server.ordering (s : Server) : State where
  streamId := s.streamId
  eventSequence := s.eventSequence
  preLoginJobs := s.preLoginJobs
  broadcasts := s.broadcasts

/-- The numbers of the rows, and a bounded number of subscribers each with a bounded queue. -/
structure Served (s : Server) : Prop where
  sequence : s.eventSequence = s.broadcasts.length
  numbered : ∀ i e, s.broadcasts[i]? = some e → e.sequence = i + 1
  tracks : ∀ id, Tracks s.streamId s.broadcasts (s.subscribers id)
  current : ∀ id ∈ s.clients, (s.subscribers id).closing = false ∧ id < s.nextId
  nodup : s.clients.Nodup
  few : s.clients.length ≤ kMaxClients

def Current (s : Server) : Prop :=
  ∀ id ∈ s.clients, UpToDate s.streamId s.broadcasts (s.subscribers id)

/-- A row on its way to the subscribers of `todo`, who have all the rows before it. -/
structure Sending (before : List Emission) (todo : List ℕ) (s : Server) : Prop where
  served : Served s
  behind : ∀ id ∈ todo, id ∈ s.clients ∧ UpToDate s.streamId before (s.subscribers id)
  current : ∀ id ∈ s.clients, id ∉ todo → UpToDate s.streamId s.broadcasts (s.subscribers id)

namespace Server

variable {env : Env} {s : Server} {id : ℕ} {data : Text}

section CloseClient

theorem closeClient_cases (id : ℕ) (s : Server) :
    (s.subscribers id).closing = true ∧ s.closeClient id = s ∨
    (s.subscribers id).closing = false ∧ s.closeClient id =
      { setSubscriber id { s.subscribers id with closing := true } s with
        clients := s.clients.erase id } := by
  unfold closeClient
  cases hclosing : (s.subscribers id).closing
  · exact Or.inr ⟨rfl, if_neg (by simp)⟩
  · exact Or.inl ⟨rfl, if_pos rfl⟩

@[simp] theorem closeClient_ordering : (s.closeClient id).ordering = s.ordering := by
  rcases closeClient_cases id s with ⟨-, heq⟩ | ⟨-, heq⟩
  · rw [heq]
  · rw [heq]
    rfl

@[simp] theorem closeClient_nextId : (s.closeClient id).nextId = s.nextId := by
  rcases closeClient_cases id s with ⟨-, heq⟩ | ⟨-, heq⟩
  · rw [heq]
  · rw [heq]
    rfl

theorem mem_closeClient (h : Served s) {other : ℕ} :
    other ∈ (s.closeClient id).clients ↔ other ∈ s.clients ∧ other ≠ id := by
  rcases closeClient_cases id s with ⟨hclosing, heq⟩ | ⟨-, heq⟩
  · rw [heq]
    refine ⟨fun hother => ⟨hother, ?_⟩, And.left⟩
    rintro rfl
    have hopen := (h.current other hother).1
    rw [hclosing] at hopen
    exact absurd hopen (by simp)
  · rw [heq]
    change other ∈ s.clients.erase id ↔ _
    rw [h.nodup.mem_erase_iff]
    exact And.comm

theorem closeClient_subscribers_of_ne {other : ℕ} (hother : other ≠ id) :
    (s.closeClient id).subscribers other = s.subscribers other := by
  rcases closeClient_cases id s with ⟨-, heq⟩ | ⟨-, heq⟩
  · rw [heq]
  · rw [heq]
    exact Function.update_of_ne hother _ _

theorem closeClient_subscribers (id other : ℕ) (s : Server) : ∃ closing,
    (s.closeClient id).subscribers other = { s.subscribers other with closing } := by
  rcases closeClient_cases id s with ⟨-, heq⟩ | ⟨-, heq⟩
  · rw [heq]
    exact ⟨_, rfl⟩
  · rw [heq]
    by_cases hother : other = id
    · subst hother
      exact ⟨true, Function.update_self _ _ _⟩
    · exact ⟨_, Function.update_of_ne hother _ _⟩

@[simp] theorem closeClient_streamId : (s.closeClient id).streamId = s.streamId :=
  congrArg State.streamId closeClient_ordering

@[simp] theorem closeClient_broadcasts : (s.closeClient id).broadcasts = s.broadcasts :=
  congrArg State.broadcasts closeClient_ordering

@[simp] theorem closeClient_eventSequence : (s.closeClient id).eventSequence = s.eventSequence :=
  congrArg State.eventSequence closeClient_ordering

theorem closeClient_sublist (id : ℕ) (s : Server) :
    (s.closeClient id).clients.Sublist s.clients := by
  rcases closeClient_cases id s with ⟨-, heq⟩ | ⟨-, heq⟩
  · rw [heq]
  · rw [heq]
    exact List.erase_sublist

theorem served_closeClient (h : Served s) (id : ℕ) : Served (s.closeClient id) := by
  refine ⟨?_, ?_, ?_, ?_, ?_, ?_⟩
  · rw [closeClient_eventSequence, closeClient_broadcasts]
    exact h.sequence
  · rw [closeClient_broadcasts]
    exact h.numbered
  · intro other
    obtain ⟨closing, heq⟩ := closeClient_subscribers id other s
    rw [heq, closeClient_streamId, closeClient_broadcasts]
    exact (h.tracks other).withClosing closing
  · intro other hother
    rw [mem_closeClient h] at hother
    rw [closeClient_subscribers_of_ne hother.2, closeClient_nextId]
    exact h.current other hother.1
  · exact h.nodup.sublist (closeClient_sublist id s)
  · exact (closeClient_sublist id s).length_le.trans h.few

theorem current_closeClient (h : Served s) (hcurrent : Current s) (id : ℕ) :
    Current (s.closeClient id) := by
  intro other hother
  rw [mem_closeClient h] at hother
  rw [closeClient_subscribers_of_ne hother.2, closeClient_streamId, closeClient_broadcasts]
  exact hcurrent other hother.1

end CloseClient

section Write

/-- A subscriber that cannot take the data is disconnected. -/
theorem write_cases (env : Env) (id : ℕ) (data : Text) (s : Server) :
    s.write env id data = s.closeClient id ∨
    (s.subscribers id).pendingBytes + data.length ≤ maxPendingBytesPerClient ∧
      s.write env id data = setSubscriber id ((s.subscribers id).enqueue data) s := by
  unfold write
  dsimp only
  split_ifs with hclosing hfull hfailed
  · exact Or.inl rfl
  · exact Or.inl rfl
  · exact Or.inl rfl
  · refine Or.inr ⟨?_, rfl⟩
    omega

@[simp] theorem setSubscriber_ordering (c : Subscriber) :
    (setSubscriber id c s).ordering = s.ordering := rfl

@[simp] theorem write_ordering : (s.write env id data).ordering = s.ordering := by
  rcases write_cases env id data s with heq | ⟨-, heq⟩
  · rw [heq, closeClient_ordering]
  · rw [heq, setSubscriber_ordering]

@[simp] theorem writeAll_ordering (ids : List ℕ) :
    (s.writeAll env ids data).ordering = s.ordering := by
  induction ids generalizing s with
  | nil => rfl
  | cons id ids ih =>
      change (writeAll env ids data (s.write env id data)).ordering = _
      rw [ih, write_ordering]

/-- What one subscriber is handed does not concern the others. -/
theorem served_setSubscriber (h : Served s) {c : Subscriber}
    (htracks : Tracks s.streamId s.broadcasts c)
    (hclosing : c.closing = (s.subscribers id).closing) :
    Served (setSubscriber id c s) := by
  refine ⟨h.sequence, h.numbered, ?_, ?_, h.nodup, h.few⟩
  · intro other
    change Tracks s.streamId s.broadcasts (Function.update s.subscribers id c other)
    by_cases hother : other = id
    · rwa [hother, Function.update_self]
    · rw [Function.update_of_ne hother]
      exact h.tracks other
  · intro other hother
    change (Function.update s.subscribers id c other).closing = false ∧ other < s.nextId
    by_cases hid : other = id
    · subst hid
      rw [Function.update_self, hclosing]
      exact h.current other hother
    · rw [Function.update_of_ne hid]
      exact h.current other hother

variable {streamId : Text} {before : List Emission} {e : Emission} {todo : List ℕ}

/-- One subscriber gets the row, or is disconnected. -/
theorem sending_write (h : Sending before (id :: todo) s) (hid : id ∉ todo)
    (hbroadcasts : s.broadcasts = before ++ [e]) :
    Sending before todo (s.write env id (e.line s.streamId)) := by
  rcases write_cases env id (e.line s.streamId) s with heq | ⟨hfits, heq⟩
  · rw [heq]
    refine ⟨served_closeClient h.served id, ?_, ?_⟩
    · intro other hother
      have hne : other ≠ id := by
        rintro rfl
        exact hid hother
      obtain ⟨hmem, hbehind⟩ := h.behind other (List.mem_cons_of_mem _ hother)
      rw [mem_closeClient h.served, closeClient_streamId, closeClient_subscribers_of_ne hne]
      exact ⟨⟨hmem, hne⟩, hbehind⟩
    · intro other hother htodo
      rw [mem_closeClient h.served] at hother
      rw [closeClient_streamId, closeClient_broadcasts, closeClient_subscribers_of_ne hother.2]
      exact h.current other hother.1 (by simp [hother.2, htodo])
  · have hnext : UpToDate s.streamId s.broadcasts
        ((s.subscribers id).enqueue (e.line s.streamId)) := by
      rw [hbroadcasts]
      exact (h.behind id List.mem_cons_self).2.enqueue
    rw [heq]
    refine ⟨served_setSubscriber h.served ((h.served.tracks id).enqueue hfits hnext)
      enqueue_closing, ?_, ?_⟩
    · intro other hother
      have hne : other ≠ id := by
        rintro rfl
        exact hid hother
      obtain ⟨hmem, hbehind⟩ := h.behind other (List.mem_cons_of_mem _ hother)
      refine ⟨hmem, ?_⟩
      change UpToDate s.streamId before (Function.update s.subscribers id _ other)
      rwa [Function.update_of_ne hne]
    · intro other hother htodo
      change UpToDate s.streamId s.broadcasts (Function.update s.subscribers id _ other)
      by_cases hne : other = id
      · rwa [hne, Function.update_self]
      · rw [Function.update_of_ne hne]
        exact h.current other hother (by simp [hne, htodo])

theorem sending_writeAll (h : Sending before todo s) (htodo : todo.Nodup)
    (hbroadcasts : s.broadcasts = before ++ [e]) (hstream : s.streamId = streamId) :
    Sending before [] (s.writeAll env todo (e.line streamId)) := by
  induction todo generalizing s with
  | nil => exact h
  | cons id todo ih =>
      subst hstream
      have hordering : (s.write env id (e.line s.streamId)).ordering = s.ordering := write_ordering
      rw [List.nodup_cons] at htodo
      refine ih (sending_write h htodo.1 hbroadcasts) htodo.2 ?_ ?_
      · exact (congrArg State.broadcasts hordering).trans hbroadcasts
      · exact congrArg State.streamId hordering

end Write

section Publish

/-- The server orders the rows as if it had no subscribers at all. -/
theorem broadcast_ordering (env : Env) (row : Row) (s : Server) :
    (s.broadcast env row).ordering = s.ordering.broadcast env.now row := by
  unfold broadcast State.broadcast
  split_ifs with hevent
  · rfl
  · rw [writeAll_ordering]
    rfl

theorem broadcastAll_ordering (env : Env) (jobs : List Row) (s : Server) :
    (jobs.foldl (fun s job => s.broadcast env job) s).ordering =
      jobs.foldl (fun s job => s.broadcast env.now job) s.ordering := by
  induction jobs generalizing s with
  | nil => rfl
  | cons job jobs ih =>
      rw [List.foldl_cons, List.foldl_cons, ih, broadcast_ordering]

theorem setPending_ordering (minerId : Int64) (jobs : Option (List Row)) (s : Server) :
    (s.setPending minerId jobs).ordering =
      { s.ordering with preLoginJobs := Function.update s.ordering.preLoginJobs minerId jobs } :=
        rfl

theorem broadcast_preLoginJobs (env : Env) (row : Row) (s : Server) :
    (s.broadcast env row).preLoginJobs = (s.ordering.broadcast env.now row).preLoginJobs :=
  congrArg State.preLoginJobs (broadcast_ordering env row s)

theorem publishOrdered_ordering (env : Env) (row : Row) (s : Server) :
    (s.publishOrdered env row).ordering = s.ordering.publishOrdered env.now row := by
  unfold publishOrdered State.publishOrdered
  cases row.minerId with
  | none => exact broadcast_ordering env row s
  | some minerId =>
      have hpending : s.ordering.preLoginJobs = s.preLoginJobs := rfl
      dsimp only
      rw [hpending]
      split_ifs
      · exact broadcast_ordering env row _
      · rfl
      · rw [broadcastAll_ordering, setPending_ordering, broadcast_ordering, broadcast_preLoginJobs]
      · rw [broadcastAll_ordering, setPending_ordering, broadcast_ordering]
      · exact broadcast_ordering env row _
      · exact broadcast_ordering env row s

/-- What every step keeps. -/
structure Keeps (s : Server) : Prop where
  served : Served s
  current : Current s

theorem keeps_broadcast (h : Keeps s) (env : Env) (row : Row) : Keeps (s.broadcast env row) := by
  unfold broadcast
  split_ifs
  · exact h
  · dsimp only
    set emission : Emission := ⟨s.eventSequence + 1, env.now (s.eventSequence + 1), row⟩
      with hemission
    have hsequence := h.served.sequence
    have hstart : Sending s.broadcasts s.clients
        { s with
          eventSequence := s.eventSequence + 1
          broadcasts := s.broadcasts ++ [emission] } := by
      refine ⟨⟨?_, ?_, ?_, h.served.current, h.served.nodup, h.served.few⟩, ?_, ?_⟩
      · rw [List.length_append, hsequence]
        rfl
      · intro i e he
        dsimp only at he
        rw [List.getElem?_append] at he
        split_ifs at he with hi
        · exact h.served.numbered i e he
        · obtain ⟨hi', rfl⟩ : i - s.broadcasts.length = 0 ∧ emission = e := by
            simpa [List.getElem?_singleton] using he
          rw [hemission]
          dsimp only
          omega
      · exact fun id => (h.served.tracks id).extend
      · exact fun id hid => ⟨hid, h.current id hid⟩
      · exact fun id hid hnot => absurd hid hnot
    have hsent : Sending s.broadcasts [] (writeAll env s.clients (emission.line s.streamId) _) :=
      sending_writeAll hstart h.served.nodup rfl rfl
    exact ⟨hsent.served, fun id hid => hsent.current id hid (List.not_mem_nil)⟩

theorem keeps_setPending (h : Keeps s) (minerId : Int64) (jobs : Option (List Row)) :
    Keeps (s.setPending minerId jobs) :=
  ⟨⟨h.served.sequence, h.served.numbered, h.served.tracks, h.served.current, h.served.nodup,
    h.served.few⟩, h.current⟩

theorem keeps_broadcastAll (h : Keeps s) (env : Env) (jobs : List Row) :
    Keeps (jobs.foldl (fun s job => s.broadcast env job) s) := by
  induction jobs generalizing s with
  | nil => exact h
  | cons job jobs ih => exact ih (keeps_broadcast h env job)

theorem keeps_publishOrdered (h : Keeps s) (env : Env) (row : Row) :
    Keeps (s.publishOrdered env row) := by
  unfold publishOrdered
  cases row.minerId with
  | none => exact keeps_broadcast h env row
  | some minerId =>
      dsimp only
      split_ifs
      · exact keeps_broadcast (keeps_setPending h minerId _) env row
      · exact keeps_setPending h minerId _
      · exact keeps_broadcastAll (keeps_setPending (keeps_broadcast h env row) minerId _) env _
      · exact keeps_broadcastAll (keeps_setPending (keeps_broadcast h env row) minerId _) env _
      · exact keeps_broadcast (keeps_setPending h minerId _) env row
      · exact keeps_broadcast h env row

end Publish

section Subscribers

theorem keeps_closeClient (h : Keeps s) (id : ℕ) : Keeps (s.closeClient id) :=
  ⟨served_closeClient h.served id, current_closeClient h.served h.current id⟩

theorem connected_subscribers_of_ne {other : ℕ} (hother : other ≠ s.nextId) :
    (connected s).subscribers other = s.subscribers other := Function.update_of_ne hother _ _

theorem connected_subscribers_self :
    (connected s).subscribers s.nextId = { since := s.broadcasts.length } :=
  Function.update_self _ _ _

theorem ne_nextId (h : Served s) (hid : id ∈ s.clients) : id ≠ s.nextId := by
  have hlt := (h.current id hid).2
  omega

theorem tracks_connected (h : Served s) (other : ℕ) :
    Tracks s.streamId s.broadcasts ((connected s).subscribers other) := by
  by_cases hother : other = s.nextId
  · rw [hother, connected_subscribers_self]
    exact Tracks.fresh
  · rw [connected_subscribers_of_ne hother]
    exact h.tracks other

theorem keeps_connected (h : Keeps s) : Keeps (connected s) := by
  have hserved := h.served
  refine ⟨⟨hserved.sequence, hserved.numbered, tracks_connected hserved, ?_, hserved.nodup,
    hserved.few⟩, ?_⟩
  · intro other hother
    obtain ⟨hopen, hlt⟩ := hserved.current other hother
    rw [connected_subscribers_of_ne (ne_nextId hserved hother)]
    exact ⟨hopen, Nat.lt_succ_of_lt hlt⟩
  · intro other hother
    rw [connected_subscribers_of_ne (ne_nextId hserved hother)]
    exact h.current other hother

theorem served_subscribed (h : Keeps s) (hfew : s.clients.length < kMaxClients) :
    Served (subscribed s) := by
  have hserved := h.served
  refine ⟨hserved.sequence, hserved.numbered, tracks_connected hserved, ?_, ?_, ?_⟩
  · intro other hother
    rcases List.mem_append.mp hother with hother | hother
    · exact (keeps_connected h).served.current other hother
    · rw [List.mem_singleton.mp hother]
      change ((connected s).subscribers s.nextId).closing = false ∧ _
      rw [connected_subscribers_self]
      exact ⟨rfl, Nat.lt_succ_self _⟩
  · change (s.clients ++ [s.nextId]).Nodup
    rw [List.nodup_append]
    refine ⟨hserved.nodup, List.nodup_singleton _, ?_⟩
    intro a ha b hb
    rw [List.mem_singleton.mp hb]
    exact ne_nextId hserved ha
  · change (s.clients ++ [s.nextId]).length ≤ kMaxClients
    rw [List.length_append]
    exact hfew

/-- The others are up to date when a subscriber comes. -/
theorem subscribed_others (h : Keeps s) {other : ℕ} (hother : other ∈ (subscribed s).clients)
    (hne : other ≠ s.nextId) :
    UpToDate s.streamId s.broadcasts ((connected s).subscribers other) := by
  rcases List.mem_append.mp hother with hother | hother
  · exact (keeps_connected h).current other hother
  · exact absurd (List.mem_singleton.mp hother) hne

theorem keeps_refused (h : Keeps s) (hfew : s.clients.length < kMaxClients) :
    Keeps (closeClient s.nextId (subscribed s)) := by
  have hserved := served_subscribed h hfew
  refine ⟨served_closeClient hserved _, ?_⟩
  intro other hother
  rw [mem_closeClient hserved] at hother
  rw [closeClient_subscribers_of_ne hother.2, closeClient_streamId, closeClient_broadcasts]
  exact subscribed_others h hother.1 hother.2

/-- A new subscriber has everything that was broadcast since it came, which is nothing. -/
theorem keeps_accept (h : Keeps s) (env : Env) (readable : Bool) :
    Keeps (s.accept env readable) := by
  unfold accept
  split_ifs with hrunning hfull
  · exact h
  · exact keeps_closeClient (keeps_connected h) _
  · have hfew : s.clients.length < kMaxClients := by omega
    rcases write_cases env s.nextId csvHeader (subscribed s) with heq | ⟨hfits, heq⟩
    · rw [heq]
      exact keeps_refused h hfew
    · have hself : (subscribed s).subscribers s.nextId = { since := s.broadcasts.length } :=
        connected_subscribers_self
      have hheader : UpToDate s.streamId s.broadcasts
          (((subscribed s).subscribers s.nextId).enqueue csvHeader) := by
        rw [hself]
        exact UpToDate.header
      have hserved := served_subscribed h hfew
      rw [heq]
      refine ⟨served_setSubscriber hserved ((hserved.tracks _).enqueue hfits hheader)
        enqueue_closing, ?_⟩
      intro other hother
      change UpToDate s.streamId s.broadcasts (Function.update (subscribed s).subscribers _ _ other)
      by_cases hne : other = s.nextId
      · rwa [hne, Function.update_self]
      · rw [Function.update_of_ne hne]
        exact subscribed_others h hother hne
  · exact keeps_refused h (by omega)

theorem keeps_onWrite (h : Keeps s) (id : ℕ) (succeeded : Bool) :
    Keeps (s.onWrite id succeeded) := by
  unfold onWrite
  cases hunfinished : (s.subscribers id).unfinished with
  | nil => exact h
  | cons data rest =>
      dsimp only
      have hfinish := (h.served.tracks id).finish hunfinished
      have hkeeps : Keeps (setSubscriber id
          { s.subscribers id with
            pendingBytes := if data.length ≤ (s.subscribers id).pendingBytes then
              (s.subscribers id).pendingBytes - data.length else 0
            unfinished := rest } s) := by
        refine ⟨served_setSubscriber h.served hfinish rfl, ?_⟩
        intro other hother
        change UpToDate s.streamId s.broadcasts (Function.update s.subscribers id _ other)
        by_cases hne : other = id
        · subst hne
          rw [Function.update_self]
          exact ⟨(h.current other hother).since_le, (h.current other hother).written⟩
        · rw [Function.update_of_ne hne]
          exact h.current other hother
      cases succeeded
      · exact keeps_closeClient hkeeps id
      · exact hkeeps

theorem keeps_stop (h : Keeps s) : Keeps s.stop := by
  have hclose : ∀ ids : List ℕ, ∀ s : Server, Keeps s →
      Keeps (ids.foldl (fun s id => closeClient id s) s) := by
    intro ids
    induction ids with
    | nil => exact fun s hs => hs
    | cons id ids ih => exact fun s hs => ih _ (keeps_closeClient hs id)
  refine hclose _ _ ⟨⟨h.served.sequence, h.served.numbered, h.served.tracks, h.served.current,
    h.served.nodup, h.served.few⟩, h.current⟩

theorem keeps_step (h : Keeps s) (env : Env) (e : Happening) : Keeps (s.step env e) := by
  cases e with
  | accept readable => exact keeps_accept h env readable
  | publish row =>
      change Keeps (s.publish env row)
      unfold publish
      split_ifs
      · exact keeps_publishOrdered h env row
      · exact h
  | onWrite id succeeded => exact keeps_onWrite h id succeeded
  | onRead id =>
      change Keeps (s.onRead id)
      unfold onRead
      split_ifs
      · exact keeps_closeClient h id
      · exact h
  | stop => exact keeps_stop h

theorem keeps_init (streamId : Text) : Keeps ({ streamId } : Server) := by
  refine ⟨⟨rfl, ?_, fun _ => Tracks.fresh, ?_, List.nodup_nil, Nat.zero_le _⟩, ?_⟩
  · intro i e he
    exact absurd he (by simp)
  · exact fun id hid => absurd hid List.not_mem_nil
  · exact fun id hid => absurd hid List.not_mem_nil

theorem keeps_state (streamId : Text) (es : ℕ → Env × Happening) (k : ℕ) :
    Keeps ((machine streamId).state es k) :=
  Machine.invariant (P := Keeps) (keeps_init streamId) (fun _ e h => keeps_step h e.1 e.2) k

end Subscribers

section Ordering

theorem closeAll_ordering (ids : List ℕ) (s : Server) :
    (ids.foldl (fun s id => closeClient id s) s).ordering = s.ordering := by
  induction ids generalizing s with
  | nil => rfl
  | cons id ids ih =>
      rw [List.foldl_cons, ih, closeClient_ordering]

theorem accept_ordering (env : Env) (readable : Bool) (s : Server) :
    (s.accept env readable).ordering = s.ordering := by
  unfold accept
  split_ifs
  · rfl
  · exact closeClient_ordering
  · exact write_ordering
  · exact closeClient_ordering

theorem onWrite_ordering (id : ℕ) (succeeded : Bool) (s : Server) :
    (s.onWrite id succeeded).ordering = s.ordering := by
  unfold onWrite
  cases (s.subscribers id).unfinished with
  | nil => rfl
  | cons data rest =>
      cases succeeded
      · exact closeClient_ordering
      · rfl

theorem onRead_ordering (id : ℕ) (s : Server) : (s.onRead id).ordering = s.ordering := by
  unfold onRead
  split_ifs
  · exact closeClient_ordering
  · rfl

theorem publish_ordering (env : Env) (row : Row) (s : Server) :
    (s.publish env row).ordering = s.ordering ∨
      (s.publish env row).ordering = s.ordering.publishOrdered env.now row := by
  unfold publish
  split_ifs
  · exact Or.inr (publishOrdered_ordering env row s)
  · exact Or.inl rfl

/-- A row that concerns no miner is broadcast at once. -/
theorem publish_broadcasts (env : Env) {row : Row} (hrunning : s.running = true)
    (hminer : row.minerId = none) (hevent : row.event ≠ []) :
    (s.publish env row).broadcasts =
      s.broadcasts ++ [⟨s.eventSequence + 1, env.now (s.eventSequence + 1), row⟩] := by
  have hpublish : s.publish env row = s.broadcast env row := by
    unfold publish publishOrdered
    rw [if_pos hrunning, hminer]
  have hordering := broadcast_ordering env row s
  unfold State.broadcast at hordering
  rw [if_neg hevent] at hordering
  rw [hpublish]
  exact congrArg State.broadcasts hordering

theorem publishOrdered_streamId (now : ℕ → Clock) (row : Row) (s : State) :
    (s.publishOrdered now row).streamId = s.streamId := by
  have hbroadcast : ∀ row, ∀ s : State, (s.broadcast now row).streamId = s.streamId := by
    intro row s
    unfold State.broadcast
    split_ifs <;> rfl
  have hall : ∀ jobs : List Row, ∀ s : State,
      (jobs.foldl (fun s job => s.broadcast now job) s).streamId = s.streamId := by
    intro jobs
    induction jobs with
    | nil => exact fun s => rfl
    | cons job jobs ih => exact fun s => (ih _).trans (hbroadcast job s)
  unfold State.publishOrdered
  cases row.minerId with
  | none => exact hbroadcast row s
  | some minerId =>
      dsimp only
      split_ifs
      · exact hbroadcast row _
      · rfl
      · exact (hall _ _).trans (hbroadcast row s)
      · exact (hall _ _).trans (hbroadcast row s)
      · exact hbroadcast row _
      · exact hbroadcast row s

theorem step_streamId (env : Env) (e : Happening) (s : Server) :
    (s.step env e).streamId = s.streamId := by
  have hordering : (s.step env e).ordering.streamId = s.ordering.streamId := by
    cases e with
    | accept readable => exact congrArg State.streamId (accept_ordering env readable s)
    | publish row =>
        rcases publish_ordering env row s with heq | heq
        · exact congrArg State.streamId heq
        · exact (congrArg State.streamId heq).trans (publishOrdered_streamId _ _ _)
    | onWrite id succeeded => exact congrArg State.streamId (onWrite_ordering id succeeded s)
    | onRead id => exact congrArg State.streamId (onRead_ordering id s)
    | stop =>
        have hclose := closeAll_ordering s.clients.reverse
          { s with
            running := false
            preLoginJobs := fun _ => none }
        have hstream := congrArg State.streamId hclose
        exact hstream
  exact hordering

theorem state_streamId (streamId : Text) (es : ℕ → Env × Happening) (k : ℕ) :
    ((machine streamId).state es k).streamId = streamId :=
  Machine.invariant (P := fun s : Server => s.streamId = streamId) rfl
    (fun s e h => (step_streamId e.1 e.2 s).trans h) k

end Ordering

end Server

/-- Whatever comes and goes, every subscriber is handed the header and then the rows that were
broadcast after it came, one after another and none left out, up to the one at which it was
disconnected. While it is subscribed none is missing. The rows are numbered in the order in which
they were broadcast. What its socket has not sent yet is the end of what it was handed, and is
bounded. -/
theorem subscriber_written (streamId : Text) (es : ℕ → Env × Happening) (k id : ℕ) :
    let s := (Server.machine streamId).state es k
    let c := s.subscribers id
    (∀ i e, s.broadcasts[i]? = some e → e.sequence = i + 1) ∧
      (c.written = [] ∨ ∃ count, c.since + count ≤ s.broadcasts.length ∧
        c.written = handed streamId s.broadcasts c.since count) ∧
      (id ∈ s.clients → c.closing = false ∧ c.since ≤ s.broadcasts.length ∧
        c.written = handed streamId s.broadcasts c.since (s.broadcasts.length - c.since)) ∧
      c.unfinished <:+ c.written ∧
      c.pendingBytes = (c.unfinished.map List.length).sum ∧
      c.pendingBytes ≤ maxPendingBytesPerClient ∧
      s.clients.Nodup ∧ s.clients.length ≤ kMaxClients := by
  intro s c
  obtain ⟨hserved, hcurrent⟩ := Server.keeps_state streamId es k
  have hstream : s.streamId = streamId := Server.state_streamId streamId es k
  have htracks := hserved.tracks id
  have hlog := htracks.log
  rw [show ((Server.machine streamId).state es k).streamId = streamId from hstream] at hlog
  refine ⟨hserved.numbered, hlog, ?_, htracks.queue, htracks.pending, htracks.bound, hserved.nodup,
    hserved.few⟩
  intro hid
  have hnow := hcurrent id hid
  rw [show ((Server.machine streamId).state es k).streamId = streamId from hstream] at hnow
  exact ⟨(hserved.current id hid).1, hnow.since_le, hnow.written⟩

end XmrigProxy.LiveEventStream
