import XmrigProxy.Library.Eviction
import XmrigProxy.Library.Machine
import Mathlib.Data.Bool.Basic
import Mathlib.Data.List.Nodup
import Mathlib.Data.Nat.Basic
import Mathlib.Logic.Function.Basic
import Mathlib.Order.Basic

/-! The timeline that the dashboard keeps in memory, and the browsers that follow it. A browser
starts from a snapshot and is then sent every update over a queue of bounded size; its thread takes
messages from the queue while the dashboard puts others in. -/
namespace XmrigProxy.LiveFeed

def MAX_BROWSER_SUBSCRIBERS : ℕ := 5
def MAX_SSE_QUEUE_BYTES : ℕ := 16 * 1024 * 1024
def MAX_LIVE_RING_BYTES : ℕ := 16 * 1024 * 1024
def MAX_LIVE_ROW_BYTES : ℕ := 64 * 1024
def MAX_SSE_QUEUE_MESSAGES : ℕ := 1024

/-- A row of the timeline, whatever it tells. -/
structure LiveRow (ρ : Type) where
  viewerSeq : ℕ
  session : ℕ
  row : ρ

inductive Payload (ρ : Type) where
  | update (row : LiveRow ρ)
  | state

def Payload.row? {ρ : Type} : Payload ρ → Option (LiveRow ρ)
  | .update row => some row
  | .state => none

/-- A message, with the size of its encoding. -/
structure Message (ρ : Type) where
  viewerSeq : ℕ
  payload : Payload ρ
  size : ℕ

variable {ρ : Type}

/-- `taken` was got from the queue, and its bytes still count. The fields from `since` on are read
by nothing: the number of messages before the subscription, its snapshot, and what went to the
browser. -/
structure Subscriber (ρ : Type) where
  messages : List (Message ρ) := []
  queuedBytes : ℕ := 0
  closed : Bool := false
  taken : Option (Message ρ) := none
  finished : Bool := false
  since : ℕ := 0
  snapshot : List (LiveRow ρ) := []
  written : List (Message ρ) := []

namespace Subscriber

def putNowait (message : Message ρ) (c : Subscriber ρ) : Option (Subscriber ρ) :=
  if MAX_SSE_QUEUE_BYTES < c.queuedBytes + message.size then none
  else if MAX_SSE_QUEUE_MESSAGES ≤ c.messages.length then none
  else some { c with
    messages := c.messages ++ [message]
    queuedBytes := c.queuedBytes + message.size }

/-- The first half of `get_message`. -/
def take (c : Subscriber ρ) : Subscriber ρ :=
  match c.taken, c.messages with
  | none, message :: rest =>
      { c with
        messages := rest
        taken := some message }
  | _, _ => c

/-- The second half, and the write unless the subscriber was closed meanwhile. -/
def release (c : Subscriber ρ) : Subscriber ρ :=
  match c.taken with
  | none => c
  | some message =>
      let c := { c with
        taken := none
        queuedBytes := if message.size ≤ c.queuedBytes then c.queuedBytes - message.size else 0 }
      if c.closed then { c with finished := true }
      else { c with written := c.written ++ [message] }

end Subscriber

/-- One row always fits. -/
structure Config where
  maxEvents : ℕ
  liveByteLimit : ℕ
  row_le : MAX_LIVE_ROW_BYTES ≤ liveByteLimit

def Config.create (maxEvents : ℕ) (liveByteLimit : ℕ := MAX_LIVE_RING_BYTES) : Config where
  maxEvents := maxEvents
  liveByteLimit := max MAX_LIVE_ROW_BYTES liveByteLimit
  row_le := Nat.le_max_left _ _

/-- The sizes of what is encoded as JSON. -/
structure Env (ρ : Type) where
  rowSize : LiveRow ρ → ℕ
  messageSize : ℕ → Payload ρ → ℕ

/-- `broadcasts`, all messages there ever were, are read by nothing. -/
structure State (ρ : Type) where
  events : List (LiveRow ρ) := []
  eventSizes : List ℕ := []
  eventBytes : ℕ := 0
  viewerSequence : ℕ := 0
  session : ℕ := 0
  subscribers : List ℕ := []
  clients : ℕ → Subscriber ρ := fun _ => {}
  nextId : ℕ := 0
  broadcasts : List (Message ρ) := []

namespace State

variable (config : Config) (env : Env ρ)

def setClient (id : ℕ) (client : Subscriber ρ) (s : State ρ) : State ρ :=
  { s with clients := Function.update s.clients id client }

/-- A subscriber whose queue is full is closed. -/
def offer (message : Message ρ) (s : State ρ) (id : ℕ) : State ρ :=
  match (s.clients id).putNowait message with
  | some client => setClient id client s
  | none =>
      { setClient id { s.clients id with closed := true } s with
        subscribers := s.subscribers.erase id }

def broadcast (payload : Payload ρ) (s : State ρ) : State ρ :=
  let message : Message ρ := ⟨s.viewerSequence, payload, env.messageSize s.viewerSequence payload⟩
  s.subscribers.foldl (offer message) { s with broadcasts := s.broadcasts ++ [message] }

/-- Drops the oldest rows while there are too many or they take too many bytes. -/
def evict : (events : List (LiveRow ρ)) → (sizes : List ℕ) → (bytes : ℕ) →
    List (LiveRow ρ) × List ℕ × ℕ
  | event :: events, size :: sizes, bytes =>
      if config.maxEvents < events.length + 1 ∨ config.liveByteLimit < bytes then
        evict events sizes (bytes - size)
      else (event :: events, size :: sizes, bytes)
  | events, sizes, bytes => (events, sizes, bytes)

def append (row : ρ) (storageSize : Option ℕ) (s : State ρ) : State ρ :=
  let live : LiveRow ρ := ⟨s.viewerSequence + 1, s.session, row⟩
  let size := max (storageSize.getD 0) (env.rowSize live)
  let kept := evict config (s.events ++ [live]) (s.eventSizes ++ [size]) (s.eventBytes + size)
  broadcast env (.update live)
    { s with
      viewerSequence := s.viewerSequence + 1
      events := kept.1
      eventSizes := kept.2.1
      eventBytes := kept.2.2 }

def beginSession (notice : ρ) (s : State ρ) : State ρ :=
  append config env notice none { s with session := s.session + 1 }

def subscribe (s : State ρ) : State ρ :=
  if MAX_BROWSER_SUBSCRIBERS ≤ s.subscribers.length then s
  else
    { s with
      subscribers := s.subscribers ++ [s.nextId]
      nextId := s.nextId + 1
      clients := Function.update s.clients s.nextId
        { since := s.broadcasts.length
          snapshot := s.events } }

/-- The thread of a browser ends. -/
def unsubscribe (id : ℕ) (s : State ρ) : State ρ :=
  { setClient id
      { s.clients id with
        closed := true
        finished := true } s with
    subscribers := s.subscribers.erase id }

/-- A step of the thread of a browser. -/
def atClient (f : Subscriber ρ → Subscriber ρ) (id : ℕ) (s : State ρ) : State ρ :=
  if (s.clients id).finished then s else setClient id (f (s.clients id)) s

/-- The subscribers are told to end afterwards, one by one. -/
def shutdown (s : State ρ) : State ρ := { s with subscribers := [] }

def close (id : ℕ) (s : State ρ) : State ρ :=
  if id ∈ s.subscribers then s else setClient id { s.clients id with closed := true } s

end State

inductive Happening (ρ : Type) where
  | append (row : ρ) (storageSize : Option ℕ)
  | beginSession (notice : ρ)
  | publishState
  | subscribe
  | unsubscribe (id : ℕ)
  | take (id : ℕ)
  | release (id : ℕ)
  | shutdown
  | close (id : ℕ)

namespace State

def step (config : Config) (env : Env ρ) : Happening ρ → State ρ → State ρ
  | .append row storageSize => append config env row storageSize
  | .beginSession notice => beginSession config env notice
  | .publishState => broadcast env .state
  | .subscribe => subscribe
  | .unsubscribe id => unsubscribe id
  | .take id => atClient Subscriber.take id
  | .release id => atClient Subscriber.release id
  | .shutdown => shutdown
  | .close id => close id

/-- The sizes may be others in every step. -/
def machine (ρ : Type) (config : Config) : Machine (State ρ) (Env ρ × Happening ρ) Empty where
  init := {}
  next s e := (s.step config e.1 e.2, [])

end State

/-! ### What the dashboard keeps -/

/-- A row that happens, be it told or the notice of a session. -/
def Happening.row? : Happening ρ → Option ρ
  | .append row _ => some row
  | .beginSession notice => some notice
  | _ => none

/-- What a run comes to: the sessions begun, and all rows there ever were with their sizes. -/
structure Told (ρ : Type) where
  sessions : ℕ := 0
  timeline : List (LiveRow ρ × ℕ) := []

namespace Told

/-- A row gets the next number and belongs to the current session. -/
def add (env : Env ρ) (row : ρ) (storageSize : Option ℕ) (told : Told ρ) : Told ρ :=
  let live : LiveRow ρ := ⟨told.timeline.length + 1, told.sessions, row⟩
  { told with
    timeline := told.timeline ++ [(live, max (storageSize.getD 0) (env.rowSize live))] }

def note (e : Env ρ × Happening ρ) (told : Told ρ) : Told ρ :=
  match e.2 with
  | .append row storageSize => told.add e.1 row storageSize
  | .beginSession notice =>
      add e.1 notice none { told with sessions := told.sessions + 1 }
  | _ => told

end Told

/-- What was told before step `k`, as the happenings alone say. -/
def told (es : ℕ → Env ρ × Happening ρ) : ℕ → Told ρ
  | 0 => {}
  | k + 1 => (told es k).note (es k)

/-- Every row that happened is in the timeline, in its order, and no other. -/
theorem told_rows (es : ℕ → Env ρ × Happening ρ) (k : ℕ) :
    (told es k).timeline.map (fun entry => entry.1.row) =
      (List.range k).filterMap fun j => (es j).2.row? := by
  induction k with
  | zero => rfl
  | succ k ih =>
      rw [List.range_succ, List.filterMap_append, ← ih, told, Told.note]
      cases hhappening : (es k).2 with
      | append row storageSize => simp [Told.add, hhappening, Happening.row?]
      | beginSession notice => simp [Told.add, hhappening, Happening.row?]
      | publishState => simp [hhappening, Happening.row?]
      | subscribe => simp [hhappening, Happening.row?]
      | unsubscribe id => simp [hhappening, Happening.row?]
      | take id => simp [hhappening, Happening.row?]
      | release id => simp [hhappening, Happening.row?]
      | shutdown => simp [hhappening, Happening.row?]
      | close id => simp [hhappening, Happening.row?]

def fits (config : Config) : List (LiveRow ρ × ℕ) → Bool :=
  Eviction.withinBudget Prod.snd config.maxEvents config.liveByteLimit

/-- The rows kept are the newest ones, as many as the limits allow. -/
structure Kept (config : Config) (told : Told ρ) (s : State ρ) : Prop where
  numbered : ∀ i entry, told.timeline[i]? = some entry → entry.1.viewerSeq = i + 1
  sequence : s.viewerSequence = told.timeline.length
  session : s.session = told.sessions
  events : s.events = (Eviction.trim (fits config) told.timeline).map Prod.fst
  eventSizes : s.eventSizes = (Eviction.trim (fits config) told.timeline).map Prod.snd
  eventBytes : s.eventBytes = s.eventSizes.sum

namespace State

variable {config : Config} {env : Env ρ} {told : Told ρ} {s : State ρ}

/-- The two queues are trimmed together. -/
theorem evict_eq (entries : List (LiveRow ρ × ℕ)) :
    evict config (entries.map Prod.fst) (entries.map Prod.snd) (entries.map Prod.snd).sum =
      ((Eviction.trim (fits config) entries).map Prod.fst,
        (Eviction.trim (fits config) entries).map Prod.snd,
        ((Eviction.trim (fits config) entries).map Prod.snd).sum) := by
  induction entries with
  | nil => rfl
  | cons entry entries ih =>
      have hfits : fits config (entry :: entries) = true ↔
          ¬ (config.maxEvents < (entries.map Prod.fst).length + 1 ∨
            config.liveByteLimit < ((entry :: entries).map Prod.snd).sum) := by
        rw [fits, Eviction.withinBudget_iff, List.length_cons, List.length_map]
        omega
      rw [Eviction.trim, List.map_cons, List.map_cons, evict]
      split
      · rename_i hover
        rw [if_neg fun h => hfits.mp h hover, List.sum_cons, Nat.add_sub_cancel_left, ih]
      · rename_i hwithin
        rw [if_pos (hfits.mpr hwithin), List.map_cons, List.map_cons]

/-- What the steps of the browsers leave alone. -/
def ring (s : State ρ) : ℕ × ℕ × List (LiveRow ρ) × List ℕ × ℕ :=
  (s.viewerSequence, s.session, s.events, s.eventSizes, s.eventBytes)

theorem kept_congr {t : State ρ} (h : Kept config told s) (heq : t.ring = s.ring) :
    Kept config told t := by
  obtain ⟨hsequence, hsession, hevents, hsizes, hbytes⟩ :
      t.viewerSequence = s.viewerSequence ∧ t.session = s.session ∧ t.events = s.events ∧
        t.eventSizes = s.eventSizes ∧ t.eventBytes = s.eventBytes := by
    simpa only [ring, Prod.mk.injEq] using heq
  refine ⟨h.numbered, ?_, ?_, ?_, ?_, ?_⟩
  · rw [hsequence]
    exact h.sequence
  · rw [hsession]
    exact h.session
  · rw [hevents]
    exact h.events
  · rw [hsizes]
    exact h.eventSizes
  · rw [hbytes, hsizes]
    exact h.eventBytes

@[simp] theorem offer_ring (message : Message ρ) (id : ℕ) :
    (s.offer message id).ring = s.ring := by
  rw [offer]
  split <;> rfl

@[simp] theorem offers_ring (message : Message ρ) (ids : List ℕ) :
    (ids.foldl (offer message) s).ring = s.ring := by
  induction ids generalizing s with
  | nil => rfl
  | cons id ids ih => rw [List.foldl_cons, ih, offer_ring]

@[simp] theorem broadcast_ring (payload : Payload ρ) : (s.broadcast env payload).ring = s.ring := by
  rw [broadcast, offers_ring]
  rfl

theorem kept_append (h : Kept config told s) (row : ρ) (storageSize : Option ℕ) :
    Kept config (told.add env row storageSize) (s.append config env row storageSize) := by
  unfold append Told.add
  apply kept_congr _ (broadcast_ring _)
  rw [← h.sequence, ← h.session]
  have hevict := @evict_eq ρ config
    (Eviction.trim (fits config) told.timeline ++ [(⟨s.viewerSequence + 1, s.session, row⟩,
      max (storageSize.getD 0) (env.rowSize ⟨s.viewerSequence + 1, s.session, row⟩))])
  rw [fits, Eviction.trim_trim_append Eviction.withinBudget_of_append] at hevict
  rw [List.map_append, List.map_append, List.sum_append] at hevict
  rw [← fits, ← h.events, ← h.eventSizes, ← h.eventBytes] at hevict
  obtain ⟨hevents, hrest⟩ := Prod.mk.inj hevict
  obtain ⟨hsizes, hbytes⟩ := Prod.mk.inj hrest
  refine ⟨?_, ?_, rfl, hevents, hsizes, hbytes.trans (congrArg List.sum hsizes.symm)⟩
  · intro i entry hentry
    dsimp only at hentry
    rw [List.getElem?_append] at hentry
    split at hentry
    · exact h.numbered i entry hentry
    · obtain ⟨hi, rfl⟩ := List.getElem?_eq_some_iff.mp hentry
      rw [List.length_singleton] at hi
      have hlast : i = told.timeline.length := by omega
      simp only [hlast, Nat.sub_self, List.getElem_cons_zero]
      rw [h.sequence]
  · change s.viewerSequence + 1 = _
    rw [List.length_append, h.sequence]
    rfl

theorem kept_init (config : Config) : Kept config {} ({} : State ρ) :=
  ⟨fun _ _ h => by simp at h, rfl, rfl, rfl, rfl, rfl⟩

theorem kept_begin (h : Kept config told s) :
    Kept config { told with sessions := told.sessions + 1 } { s with session := s.session + 1 } :=
  ⟨h.numbered, h.sequence, congrArg Nat.succ h.session, h.events, h.eventSizes, h.eventBytes⟩

theorem kept_step (h : Kept config told s) (e : Env ρ × Happening ρ) :
    Kept config (told.note e) (s.step config e.1 e.2) := by
  obtain ⟨env, happening⟩ := e
  cases happening with
  | append row storageSize => exact kept_append h row storageSize
  | beginSession notice => exact kept_append (kept_begin h) notice none
  | publishState => exact kept_congr h (broadcast_ring _)
  | subscribe =>
      apply kept_congr h
      change (subscribe s).ring = s.ring
      rw [subscribe]
      split <;> rfl
  | unsubscribe id => exact kept_congr h rfl
  | take id =>
      apply kept_congr h
      change (atClient _ id s).ring = s.ring
      rw [atClient]
      split <;> rfl
  | release id =>
      apply kept_congr h
      change (atClient _ id s).ring = s.ring
      rw [atClient]
      split <;> rfl
  | shutdown => exact kept_congr h rfl
  | close id =>
      apply kept_congr h
      change (close id s).ring = s.ring
      rw [close]
      split <;> rfl

theorem kept_state (config : Config) (es : ℕ → Env ρ × Happening ρ) (k : ℕ) :
    Kept config (LiveFeed.told es k) ((machine ρ config).state es k) := by
  induction k with
  | zero => exact kept_init config
  | succ k ih => exact kept_step ih (es k)

end State

/-- Whatever happens, the timeline keeps the newest of all rows that happened, as many as its limits
allow, and it numbers and measures them right. -/
theorem timeline_kept (config : Config) (es : ℕ → Env ρ × Happening ρ) (k : ℕ) :
    let s := (State.machine ρ config).state es k
    let timeline := (told es k).timeline
    (timeline.map fun entry => entry.1.row) =
        ((List.range k).filterMap fun j => (es j).2.row?) ∧
      (∀ i row size, timeline[i]? = some (row, size) → row.viewerSeq = i + 1) ∧
      s.viewerSequence = timeline.length ∧
      s.events.length = s.eventSizes.length ∧
      s.events.zip s.eventSizes <:+ timeline ∧
      s.eventBytes = s.eventSizes.sum ∧
      s.events.length ≤ config.maxEvents ∧
      s.eventBytes ≤ config.liveByteLimit ∧
      (∀ rows, rows <:+ timeline → rows.length ≤ config.maxEvents →
        (rows.map Prod.snd).sum ≤ config.liveByteLimit → rows <:+ s.events.zip s.eventSizes) ∧
      ∀ row size, timeline.getLast? = some (row, size) → 0 < config.maxEvents →
        size ≤ MAX_LIVE_ROW_BYTES → s.events.getLast? = some row := by
  intro s timeline
  have h : Kept config (told es k) s := State.kept_state config es k
  have hzip : s.events.zip s.eventSizes = Eviction.trim (fits config) timeline := by
    exact (List.zip_of_prod h.events.symm h.eventSizes.symm).symm
  have hnil := @Eviction.withinBudget_nil _ (Prod.snd : LiveRow ρ × ℕ → ℕ) config.maxEvents
    config.liveByteLimit
  have hfits := Eviction.withinBudget_iff.mp (Eviction.fits_trim hnil timeline)
  refine ⟨told_rows es k, fun i row size hentry => h.numbered i _ hentry, h.sequence, ?_, ?_,
    h.eventBytes, ?_, ?_, ?_, ?_⟩
  · rw [h.events, h.eventSizes, List.length_map, List.length_map]
  · rw [hzip]
    exact Eviction.trim_suffix _ _
  · rw [h.events, List.length_map]
    exact hfits.1
  · rw [h.eventBytes, h.eventSizes]
    exact hfits.2
  · intro rows hsuffix hcount hbytes
    rw [hzip]
    exact Eviction.trim_longest hsuffix (Eviction.withinBudget_iff.mpr ⟨hcount, hbytes⟩)
  · intro row size hlast hroom hsize
    obtain ⟨older, holder⟩ := List.getLast?_eq_some_iff.mp hlast
    have hlimit := config.row_le
    obtain ⟨kept, hkept⟩ : [(row, size)] <:+ Eviction.trim (fits config) timeline :=
      Eviction.trim_longest ⟨older, holder.symm⟩
        (Eviction.withinBudget_iff.mpr ⟨hroom, hsize.trans hlimit⟩)
    rw [h.events, ← hkept, List.map_append]
    exact List.getLast?_concat

/-! ### What a browser is sent -/

/-- The rows that messages tell. -/
def updates (messages : List (Message ρ)) : List (LiveRow ρ) :=
  messages.filterMap fun message => message.payload.row?

theorem updates_append (first second : List (Message ρ)) :
    updates (first ++ second) = updates first ++ updates second :=
  List.filterMap_append

/-- The messages that a browser is still to be sent. -/
def Subscriber.pending (c : Subscriber ρ) : List (Message ρ) := c.taken.toList ++ c.messages

structure Tracks (broadcasts : List (Message ρ)) (c : Subscriber ρ) : Prop where
  since_le : c.since ≤ broadcasts.length
  snapshot : c.snapshot <:+ updates (broadcasts.take c.since)
  written : c.written <+: broadcasts.drop c.since
  pending : c.finished = false → c.written ++ c.pending <+: broadcasts.drop c.since
  bytes : c.queuedBytes = (c.pending.map Message.size).sum
  bound : c.queuedBytes ≤ MAX_SSE_QUEUE_BYTES
  count : c.messages.length ≤ MAX_SSE_QUEUE_MESSAGES

/-- A browser that misses nothing. -/
structure UpToDate (broadcasts : List (Message ρ)) (c : Subscriber ρ) : Prop where
  closed : c.closed = false
  finished : c.finished = false
  all : c.written ++ c.pending = broadcasts.drop c.since

section Subscriber

variable {broadcasts : List (Message ρ)} {message : Message ρ} {c : Subscriber ρ}

/-- What is broadcast leaves a browser that is not subscribed alone. -/
theorem Tracks.extend (h : Tracks broadcasts c) : Tracks (broadcasts ++ [message]) c := by
  have hdrop : (broadcasts ++ [message]).drop c.since = broadcasts.drop c.since ++ [message] :=
    List.drop_append_of_le_length h.since_le
  refine ⟨?_, ?_, ?_, ?_, h.bytes, h.bound, h.count⟩
  · rw [List.length_append]
    have := h.since_le
    omega
  · rw [List.take_append_of_le_length h.since_le]
    exact h.snapshot
  · rw [hdrop]
    exact h.written.trans (List.prefix_append _ _)
  · intro hfinished
    rw [hdrop]
    exact (h.pending hfinished).trans (List.prefix_append _ _)

theorem Tracks.withClosed (h : Tracks broadcasts c) (closed : Bool) :
    Tracks broadcasts { c with closed } :=
  ⟨h.since_le, h.snapshot, h.written, h.pending, h.bytes, h.bound, h.count⟩

/-- The thread of a browser is at its end. -/
theorem Tracks.ended (h : Tracks broadcasts c) :
    Tracks broadcasts { c with
      closed := true
      finished := true } :=
  ⟨h.since_le, h.snapshot, h.written, (nomatch ·), h.bytes, h.bound, h.count⟩

theorem putNowait_eq_some {d : Subscriber ρ} (hput : c.putNowait message = some d) :
    c.queuedBytes + message.size ≤ MAX_SSE_QUEUE_BYTES ∧
      c.messages.length < MAX_SSE_QUEUE_MESSAGES ∧
      d = { c with
        messages := c.messages ++ [message]
        queuedBytes := c.queuedBytes + message.size } := by
  unfold Subscriber.putNowait at hput
  split at hput
  · contradiction
  · split at hput
    · contradiction
    · exact ⟨by omega, by omega, (Option.some.inj hput).symm⟩

/-- A message that the queue has room for. -/
theorem Tracks.put {d : Subscriber ρ} (h : Tracks broadcasts c) (hcurrent : UpToDate broadcasts c)
    (hput : c.putNowait message = some d) :
    Tracks (broadcasts ++ [message]) d ∧ UpToDate (broadcasts ++ [message]) d := by
  obtain ⟨hbytes, hcount, rfl⟩ := putNowait_eq_some hput
  have hdrop : (broadcasts ++ [message]).drop c.since = broadcasts.drop c.since ++ [message] :=
    List.drop_append_of_le_length h.since_le
  have hall : c.written ++ (c.taken.toList ++ (c.messages ++ [message])) =
      (broadcasts ++ [message]).drop c.since := by
    rw [hdrop, ← hcurrent.all, Subscriber.pending, List.append_assoc, List.append_assoc]
  have hextend : Tracks (broadcasts ++ [message]) c := h.extend
  refine ⟨⟨hextend.since_le, hextend.snapshot, hextend.written, fun _ => ?_, ?_, hbytes, ?_⟩,
    hcurrent.closed, hcurrent.finished, hall⟩
  · exact hall ▸ List.prefix_rfl
  · change c.queuedBytes + message.size =
      ((c.taken.toList ++ (c.messages ++ [message])).map Message.size).sum
    rw [h.bytes, Subscriber.pending, ← List.append_assoc,
      @List.map_append _ _ Message.size (c.taken.toList ++ c.messages) [message], List.sum_append]
    rfl
  · rw [List.length_append]
    exact hcount

theorem take_cases (c : Subscriber ρ) : c.take = c ∨
    ∃ message rest, c.taken = none ∧ c.messages = message :: rest ∧
      c.take = { c with
        messages := rest
        taken := some message } := by
  unfold Subscriber.take
  split
  · rename_i message rest htaken hmessages
    exact Or.inr ⟨message, rest, htaken, hmessages, rfl⟩
  · exact Or.inl rfl

/-- A message that is taken is still to be sent. -/
theorem take_pending (c : Subscriber ρ) : c.take.pending = c.pending := by
  rcases take_cases c with heq | ⟨message, rest, htaken, hmessages, heq⟩
  · rw [heq]
  · rw [heq, Subscriber.pending, Subscriber.pending, htaken, hmessages]
    rfl

theorem take_same (c : Subscriber ρ) : c.take.since = c.since ∧ c.take.snapshot = c.snapshot ∧
    c.take.written = c.written ∧ c.take.closed = c.closed ∧ c.take.finished = c.finished ∧
    c.take.queuedBytes = c.queuedBytes ∧ c.take.messages.length ≤ c.messages.length := by
  rcases take_cases c with heq | ⟨message, rest, -, hmessages, heq⟩
  · rw [heq]
    exact ⟨rfl, rfl, rfl, rfl, rfl, rfl, le_rfl⟩
  · rw [heq, hmessages]
    exact ⟨rfl, rfl, rfl, rfl, rfl, rfl, Nat.le_succ _⟩

theorem Tracks.take (h : Tracks broadcasts c) : Tracks broadcasts c.take := by
  obtain ⟨hsince, hsnapshot, hwritten, -, hfinished, hbytes, hcount⟩ := take_same c
  refine ⟨?_, ?_, ?_, ?_, ?_, ?_, hcount.trans h.count⟩
  · rw [hsince]
    exact h.since_le
  · rw [hsince, hsnapshot]
    exact h.snapshot
  · rw [hsince, hwritten]
    exact h.written
  · rw [hsince, hwritten, hfinished, take_pending]
    exact h.pending
  · rw [hbytes, take_pending]
    exact h.bytes
  · rw [hbytes]
    exact h.bound

theorem UpToDate.take (h : UpToDate broadcasts c) : UpToDate broadcasts c.take := by
  obtain ⟨hsince, -, hwritten, hclosed, hfinished, -, -⟩ := take_same c
  refine ⟨hclosed.trans h.closed, hfinished.trans h.finished, ?_⟩
  rw [hsince, hwritten, take_pending]
  exact h.all

/-- The bytes of the message taken are free again. A browser that was closed does not get it. -/
theorem release_cases (h : Tracks broadcasts c) : c.release = c ∨
    ∃ message, c.taken = some message ∧
      c.queuedBytes = message.size + (c.messages.map Message.size).sum ∧
      (c.closed = true ∧ c.release = { c with
          taken := none
          queuedBytes := (c.messages.map Message.size).sum
          finished := true } ∨
        c.closed = false ∧ c.release = { c with
          taken := none
          queuedBytes := (c.messages.map Message.size).sum
          written := c.written ++ [message] }) := by
  unfold Subscriber.release
  split
  · exact Or.inl rfl
  · rename_i message htaken
    have hbytes : c.queuedBytes = message.size + (c.messages.map Message.size).sum := by
      rw [h.bytes, Subscriber.pending, htaken]
      rfl
    refine Or.inr ⟨message, htaken, hbytes, ?_⟩
    rw [hbytes, if_pos (Nat.le_add_right _ _), Nat.add_sub_cancel_left]
    dsimp only
    by_cases hclosed : c.closed = true
    · exact Or.inl ⟨hclosed, if_pos hclosed⟩
    · exact Or.inr ⟨Bool.eq_false_of_not_eq_true hclosed, if_neg hclosed⟩

theorem pending_cons (htaken : c.taken = some message) :
    c.written ++ [message] ++ c.messages = c.written ++ c.pending := by
  rw [Subscriber.pending, htaken, List.append_assoc]
  rfl

theorem Tracks.release (h : Tracks broadcasts c) (hfinished : c.finished = false) :
    Tracks broadcasts c.release := by
  rcases release_cases h with heq | ⟨message, htaken, hbytes, ⟨-, heq⟩ | ⟨-, heq⟩⟩
  · rw [heq]
    exact h
  · rw [heq]
    refine ⟨h.since_le, h.snapshot, h.written, (nomatch ·), rfl, ?_, h.count⟩
    have := h.bound
    dsimp only
    omega
  · rw [heq]
    have hall := h.pending hfinished
    rw [← pending_cons htaken] at hall
    refine ⟨h.since_le, h.snapshot, (List.prefix_append _ _).trans hall, fun _ => hall, rfl, ?_,
      h.count⟩
    have := h.bound
    dsimp only
    omega

theorem UpToDate.release (htracks : Tracks broadcasts c) (h : UpToDate broadcasts c) :
    UpToDate broadcasts c.release := by
  rcases release_cases htracks with heq | ⟨message, htaken, -, ⟨hclosed, -⟩ | ⟨-, heq⟩⟩
  · rw [heq]
    exact h
  · rw [h.closed] at hclosed
    contradiction
  · rw [heq]
    exact ⟨h.closed, h.finished, (pending_cons htaken).trans h.all⟩

end Subscriber

/-- Every browser is subscribed once, and while it is it misses nothing. -/
structure Served (s : State ρ) : Prop where
  tracks : ∀ id, Tracks s.broadcasts (s.clients id)
  current : ∀ id ∈ s.subscribers, UpToDate s.broadcasts (s.clients id)
  known : ∀ id ∈ s.subscribers, id < s.nextId
  nodup : s.subscribers.Nodup
  few : s.subscribers.length ≤ MAX_BROWSER_SUBSCRIBERS

/-- A message on its way to the browsers of `todo`. -/
structure Sending (before : List (Message ρ)) (message : Message ρ) (todo : List ℕ) (s : State ρ) :
    Prop where
  broadcasts : s.broadcasts = before ++ [message]
  behind : ∀ id ∈ todo, id ∈ s.subscribers ∧ Tracks before (s.clients id) ∧
    UpToDate before (s.clients id)
  tracks : ∀ id ∉ todo, Tracks s.broadcasts (s.clients id)
  current : ∀ id ∈ s.subscribers, id ∉ todo → UpToDate s.broadcasts (s.clients id)
  nodup : s.subscribers.Nodup

namespace State

variable {env : Env ρ} {s : State ρ} {message : Message ρ} {id : ℕ}

theorem offer_cases (message : Message ρ) (s : State ρ) (id : ℕ) :
    (∃ client, (s.clients id).putNowait message = some client ∧
      s.offer message id = setClient id client s) ∨
    s.offer message id =
      { setClient id { s.clients id with closed := true } s with
        subscribers := s.subscribers.erase id } := by
  unfold offer
  split
  · rename_i client hput
    exact Or.inl ⟨client, hput, rfl⟩
  · exact Or.inr rfl

theorem sending_offer {before : List (Message ρ)} {todo : List ℕ}
    (h : Sending before message (id :: todo) s) (hid : id ∉ todo) :
    Sending before message todo (s.offer message id) := by
  obtain ⟨hmem, htracks, hcurrent⟩ := h.behind id List.mem_cons_self
  have hbehind : ∀ other ∈ todo, other ≠ id := fun other hother heq => hid (heq ▸ hother)
  rcases offer_cases message s id with ⟨client, hput, heq⟩ | heq
  · obtain ⟨hnext, hnewest⟩ := htracks.put hcurrent hput
    rw [← h.broadcasts] at hnext hnewest
    rw [heq]
    refine ⟨h.broadcasts, ?_, ?_, ?_, h.nodup⟩
    · intro other hother
      change other ∈ s.subscribers ∧ Tracks before (Function.update s.clients id client other) ∧
        UpToDate before (Function.update s.clients id client other)
      rw [Function.update_of_ne (hbehind other hother)]
      exact h.behind other (List.mem_cons_of_mem id hother)
    · intro other hother
      change Tracks s.broadcasts (Function.update s.clients id client other)
      rw [Function.update_apply]
      split
      · exact hnext
      · exact h.tracks other (by simp [*])
    · intro other hother hnot
      change UpToDate s.broadcasts (Function.update s.clients id client other)
      rw [Function.update_apply]
      split
      · exact hnewest
      · exact h.current other hother (by simp [*])
  · rw [heq]
    refine ⟨h.broadcasts, ?_, ?_, ?_, h.nodup.erase id⟩
    · intro other hother
      change other ∈ s.subscribers.erase id ∧ Tracks before (Function.update s.clients id _ other) ∧
        UpToDate before (Function.update s.clients id _ other)
      rw [Function.update_of_ne (hbehind other hother),
        List.mem_erase_of_ne (hbehind other hother)]
      exact h.behind other (List.mem_cons_of_mem id hother)
    · intro other hother
      change Tracks s.broadcasts (Function.update s.clients id _ other)
      rw [Function.update_apply]
      split
      · rw [h.broadcasts]
        exact htracks.extend.withClosed true
      · exact h.tracks other (by simp [*])
    · intro other hother hnot
      obtain ⟨hne, hother⟩ := h.nodup.mem_erase_iff.mp hother
      change UpToDate s.broadcasts (Function.update s.clients id _ other)
      rw [Function.update_of_ne hne]
      exact h.current other hother (by simp [*])

theorem sending_offers {before : List (Message ρ)} {todo : List ℕ} (hnodup : todo.Nodup)
    (h : Sending before message todo s) :
    Sending before message [] (todo.foldl (offer message) s) := by
  induction todo generalizing s with
  | nil => exact h
  | cons id todo ih =>
      obtain ⟨hid, hnodup⟩ := List.nodup_cons.mp hnodup
      exact ih hnodup (sending_offer h hid)

theorem offers_frame (message : Message ρ) (ids : List ℕ) (s : State ρ) :
    (ids.foldl (offer message) s).subscribers.Sublist s.subscribers ∧
      (ids.foldl (offer message) s).nextId = s.nextId ∧
      (ids.foldl (offer message) s).broadcasts = s.broadcasts := by
  induction ids generalizing s with
  | nil => exact ⟨List.Sublist.refl _, rfl, rfl⟩
  | cons id ids ih =>
      obtain ⟨hsublist, hnextId, hbroadcasts⟩ := ih (s.offer message id)
      rw [List.foldl_cons]
      rcases offer_cases message s id with ⟨client, -, heq⟩ | heq
      · rw [heq] at hsublist hnextId hbroadcasts ⊢
        exact ⟨hsublist, hnextId, hbroadcasts⟩
      · rw [heq] at hsublist hnextId hbroadcasts ⊢
        exact ⟨hsublist.trans List.erase_sublist, hnextId, hbroadcasts⟩

theorem served_broadcast (h : Served s) (payload : Payload ρ) :
    Served (s.broadcast env payload) := by
  set message : Message ρ := ⟨s.viewerSequence, payload, env.messageSize s.viewerSequence payload⟩
  obtain ⟨hsublist, hnextId, -⟩ :=
    offers_frame message s.subscribers { s with broadcasts := s.broadcasts ++ [message] }
  have hbegin : Sending s.broadcasts message s.subscribers
      { s with broadcasts := s.broadcasts ++ [message] } :=
    ⟨rfl, fun id hid => ⟨hid, h.tracks id, h.current id hid⟩, fun id _ => (h.tracks id).extend,
      fun id hid hnot => absurd hid hnot, h.nodup⟩
  have hsent := sending_offers h.nodup hbegin
  refine ⟨fun id => hsent.tracks id List.not_mem_nil,
    fun id hid => hsent.current id hid List.not_mem_nil, fun id hid => ?_, hsent.nodup,
    hsublist.length_le.trans h.few⟩
  rw [broadcast, hnextId]
  exact h.known id (hsublist.subset hid)

theorem updates_broadcast (payload : Payload ρ) (s : State ρ) :
    updates (s.broadcast env payload).broadcasts =
      updates s.broadcasts ++ payload.row?.toList := by
  obtain ⟨-, -, hbroadcasts⟩ := offers_frame
    ⟨s.viewerSequence, payload, env.messageSize s.viewerSequence payload⟩ s.subscribers
    { s with broadcasts := s.broadcasts ++
      [⟨s.viewerSequence, payload, env.messageSize s.viewerSequence payload⟩] }
  rw [broadcast, hbroadcasts, updates_append]
  cases payload <;> rfl

end State

/-- All rows were told, and no others. -/
structure Live (config : Config) (told : Told ρ) (s : State ρ) : Prop where
  kept : Kept config told s
  served : Served s
  updates : updates s.broadcasts = told.timeline.map Prod.fst

namespace State

variable {config : Config} {env : Env ρ} {told : Told ρ} {s : State ρ}

theorem live_append (h : Live config told s) (row : ρ) (storageSize : Option ℕ) :
    Live config (told.add env row storageSize) (s.append config env row storageSize) := by
  refine ⟨kept_append h.kept row storageSize, ?_, ?_⟩
  · unfold append
    apply served_broadcast
    exact ⟨h.served.tracks, h.served.current, h.served.known, h.served.nodup, h.served.few⟩
  · rw [append, updates_broadcast, Told.add, ← h.kept.sequence, ← h.kept.session,
      List.map_append]
    exact congrArg (· ++ _) h.updates

/-- The snapshot of a new browser is the end of the timeline. -/
theorem live_subscribe (h : Live config told s) : Live config told s.subscribe := by
  unfold subscribe
  split
  · exact h
  · rename_i hroom
    have hfresh : s.nextId ∉ s.subscribers := fun hmem =>
      absurd (h.served.known _ hmem) (Nat.lt_irrefl _)
    refine ⟨kept_congr h.kept rfl, ⟨?_, ?_, ?_, ?_, ?_⟩, h.updates⟩
    · intro id
      dsimp only
      rw [Function.update_apply]
      split
      · refine ⟨le_rfl, ?_, List.nil_prefix, fun _ => List.nil_prefix, rfl, Nat.zero_le _,
          Nat.zero_le _⟩
        rw [List.take_length, h.updates, h.kept.events]
        exact (Eviction.trim_suffix _ _).map _
      · exact h.served.tracks id
    · intro id hid
      dsimp only at hid ⊢
      rcases List.mem_append.mp hid with hid | hid
      · rw [Function.update_of_ne (fun heq : id = s.nextId => hfresh (heq ▸ hid))]
        exact h.served.current id hid
      · rw [List.mem_singleton.mp hid, Function.update_self]
        refine ⟨rfl, rfl, ?_⟩
        rw [List.drop_length]
        rfl
    · intro id hid
      dsimp only at hid ⊢
      rcases List.mem_append.mp hid with hid | hid
      · exact (h.served.known id hid).trans (Nat.lt_succ_self _)
      · rw [List.mem_singleton.mp hid]
        exact Nat.lt_succ_self _
    · exact List.nodup_append.mpr ⟨h.served.nodup, List.nodup_singleton _, by
        intro id hid other hother heq
        rw [List.mem_singleton.mp hother] at heq
        exact hfresh (heq ▸ hid)⟩
    · dsimp only
      rw [List.length_append, List.length_singleton]
      omega

/-- A change to one browser. -/
theorem served_setClient (h : Served s) {id : ℕ} {client : Subscriber ρ} {remaining : List ℕ}
    (hremaining : remaining.Sublist s.subscribers) (htracks : Tracks s.broadcasts client)
    (hcurrent : id ∈ remaining → UpToDate s.broadcasts client) :
    Served { setClient id client s with subscribers := remaining } := by
  refine ⟨?_, ?_, ?_, h.nodup.sublist hremaining, hremaining.length_le.trans h.few⟩
  · intro other
    change Tracks s.broadcasts (Function.update s.clients id client other)
    rw [Function.update_apply]
    split
    · exact htracks
    · exact h.tracks other
  · intro other hother
    change UpToDate s.broadcasts (Function.update s.clients id client other)
    rw [Function.update_apply]
    split
    · rename_i heq
      exact hcurrent (heq ▸ hother)
    · exact h.current other (hremaining.subset hother)
  · intro other hother
    exact h.known other (hremaining.subset hother)

theorem live_atClient (h : Live config told s) {f : Subscriber ρ → Subscriber ρ} (id : ℕ)
    (htracks : (s.clients id).finished = false → Tracks s.broadcasts (f (s.clients id)))
    (hcurrent : UpToDate s.broadcasts (s.clients id) → UpToDate s.broadcasts (f (s.clients id))) :
    Live config told (s.atClient f id) := by
  unfold atClient
  split
  · exact h
  · rename_i hfinished
    exact ⟨kept_congr h.kept rfl, served_setClient h.served (List.Sublist.refl _)
      (htracks (Bool.eq_false_of_not_eq_true hfinished))
      fun hid => hcurrent (h.served.current id hid), h.updates⟩

theorem live_init (config : Config) : Live config {} ({} : State ρ) := by
  refine ⟨kept_init config, ⟨?_, ?_, ?_, List.nodup_nil, Nat.zero_le _⟩, rfl⟩
  · intro id
    exact ⟨le_rfl, List.suffix_rfl, List.prefix_rfl, fun _ => List.prefix_rfl, rfl, Nat.zero_le _,
      Nat.zero_le _⟩
  · intro id hid
    exact absurd hid List.not_mem_nil
  · intro id hid
    exact absurd hid List.not_mem_nil

theorem live_step (h : Live config told s) (e : Env ρ × Happening ρ) :
    Live config (told.note e) (s.step config e.1 e.2) := by
  obtain ⟨env, happening⟩ := e
  cases happening with
  | append row storageSize => exact live_append h row storageSize
  | beginSession notice =>
      have hnext : Live config { told with sessions := told.sessions + 1 }
          { s with session := s.session + 1 } :=
        ⟨kept_begin h.kept, ⟨h.served.tracks, h.served.current, h.served.known, h.served.nodup,
          h.served.few⟩, h.updates⟩
      exact live_append hnext notice none
  | publishState =>
      refine ⟨kept_congr h.kept (broadcast_ring _), served_broadcast h.served _, ?_⟩
      change updates (s.broadcast env .state).broadcasts = told.timeline.map Prod.fst
      rw [updates_broadcast, h.updates]
      exact List.append_nil _
  | subscribe => exact live_subscribe h
  | unsubscribe id =>
      exact ⟨kept_congr h.kept rfl, served_setClient h.served List.erase_sublist
        (h.served.tracks id).ended fun hid => absurd hid (h.served.nodup.not_mem_erase),
        h.updates⟩
  | take id =>
      exact live_atClient h id (fun _ => (h.served.tracks id).take) UpToDate.take
  | release id =>
      exact live_atClient h id (h.served.tracks id).release
        (UpToDate.release (h.served.tracks id))
  | shutdown =>
      refine ⟨kept_congr h.kept rfl, ⟨h.served.tracks, ?_, ?_, List.nodup_nil, Nat.zero_le _⟩,
        h.updates⟩
      · intro id hid
        exact absurd hid List.not_mem_nil
      · intro id hid
        exact absurd hid List.not_mem_nil
  | close id =>
      change Live config told (close id s)
      unfold close
      split
      · exact h
      · rename_i hid
        exact ⟨kept_congr h.kept rfl, served_setClient h.served (List.Sublist.refl _)
          ((h.served.tracks id).withClosed true) fun hmem => absurd hmem hid, h.updates⟩

theorem live_state (config : Config) (es : ℕ → Env ρ × Happening ρ) (k : ℕ) :
    Live config (LiveFeed.told es k) ((machine ρ config).state es k) := by
  induction k with
  | zero => exact live_init config
  | succ k ih => exact live_step ih (es k)

end State

/-- Whatever happens, a browser gets the messages since it came in their order and without a gap,
over a queue that keeps its limits, and while it is subscribed none is missing. With its snapshot,
it has consecutive rows of the timeline. -/
theorem browser_written (config : Config) (es : ℕ → Env ρ × Happening ρ) (k id : ℕ) :
    let s := (State.machine ρ config).state es k
    let c := s.clients id
    let timeline := (told es k).timeline
    s.subscribers.Nodup ∧ s.subscribers.length ≤ MAX_BROWSER_SUBSCRIBERS ∧
      c.written <+: s.broadcasts.drop c.since ∧
      (∃ n, c.snapshot ++ updates c.written <+: (timeline.map Prod.fst).drop n) ∧
      c.queuedBytes = (c.pending.map Message.size).sum ∧
      c.queuedBytes ≤ MAX_SSE_QUEUE_BYTES ∧ c.messages.length ≤ MAX_SSE_QUEUE_MESSAGES ∧
      (id ∈ s.subscribers →
        c.written ++ c.pending = s.broadcasts.drop c.since ∧
        ∃ n, c.snapshot ++ updates (c.written ++ c.pending) =
          (timeline.map Prod.fst).drop n) := by
  intro s c timeline
  have h : Live config (told es k) s := State.live_state config es k
  have htracks := h.served.tracks id
  obtain ⟨before, hbefore⟩ := htracks.snapshot
  -- The rows since the beginning, split where the browser came.
  have hrows : before ++ (c.snapshot ++ updates (s.broadcasts.drop c.since)) =
      timeline.map Prod.fst := by
    rw [← List.append_assoc, hbefore, ← updates_append, List.take_append_drop, h.updates]
  have hdrop : c.snapshot ++ updates (s.broadcasts.drop c.since) =
      (timeline.map Prod.fst).drop before.length := by
    rw [← hrows, List.drop_left]
  refine ⟨h.served.nodup, h.served.few, htracks.written, ⟨before.length, ?_⟩, htracks.bytes,
    htracks.bound, htracks.count, fun hid => ?_⟩
  · rw [← hdrop]
    obtain ⟨rest, hrest⟩ := htracks.written
    rw [← hrest, updates_append, ← List.append_assoc]
    exact List.prefix_append _ _
  · have hall := (h.served.current id hid).all
    refine ⟨hall, before.length, ?_⟩
    rw [hall, hdrop]

end XmrigProxy.LiveFeed
