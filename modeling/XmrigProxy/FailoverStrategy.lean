import XmrigProxy.Library.Machine
import Mathlib.Data.Int.Notation

/-! Failover over stratum clients. A client goes back to its pool by itself after a loss unless
it was disconnected, and the strategy moves on to the next pool when the last one it tried
fails. A resolver that answers at once is one whose answer is the next event, and a tick of the
strategy is one event for each client. TLS, proxies and keepalives are omitted. -/
namespace XmrigProxy

namespace Client

inductive SocketState where
  | unconnected
  | hostLookup
  | connecting
  | connected
  | closing
  | reconnecting
  deriving DecidableEq, Repr

/-- The socket is there with a flag that tells whether it is being closed; `closes` counts the
callbacks that are still to come of that. -/
structure State where
  state : SocketState := .unconnected
  failures : ℤ := 0
  expire : Option ℕ := none
  dns : Bool := false
  socket : Option Bool := none
  closes : ℕ := 0
  deriving DecidableEq

structure Env where
  now : ℕ := 0
  retryPause : ℕ := 0

def kConnectTimeout : ℕ := 20 * 1000

variable (env : Env)

def setState (state : SocketState) (s : State) : State :=
  if s.state = state then s
  else
    { s with
      state := state
      expire := match state with
        | .hostLookup => none
        | .connecting => some (env.now + kConnectTimeout)
        | .reconnecting => some (env.now + env.retryPause)
        | _ => s.expire }

def resolve (s : State) : State :=
  let s := setState env .hostLookup s
  { s with
    failures := if s.failures = -1 then 0 else s.failures
    dns := true }

def connect (s : State) : State := resolve env s

def close (s : State) : State :=
  if s.state = .closing ∨ s.state = .unconnected then s
  else match s.socket with
    | none => s
    | some true => setState env .closing s
    | some false =>
        let s := setState env .closing s
        { s with
          socket := some true
          closes := s.closes + 1 }

def disconnect (s : State) : State :=
  close env { s with
    expire := none
    failures := -1 }

/-- Also tells the failures that the listener hears of. -/
def reconnect (s : State) : State × ℤ :=
  if s.failures = -1 then (s, -1)
  else
    let s := setState env .reconnecting s
    ({ s with failures := s.failures + 1 }, s.failures + 1)

def connectTo (s : State) : State :=
  let s := setState env .connecting s
  { s with socket := some false }

def onResolved (ok : Bool) (s : State) : State × Option ℤ :=
  let s := { s with dns := false }
  if ok then (connectTo env s, none)
  else
    let (s, failures) := reconnect env s
    (s, some failures)

def onConnect (ok : Bool) (s : State) : State :=
  if ok then setState env .connected s
  else if s.state = .connecting then close env s
  else s

def onClose (s : State) : State × ℤ :=
  let s := setState env .unconnected { s with
    socket := none
    closes := s.closes - 1 }
  reconnect env s

/-- A line went out, so an answer is no longer waited for. -/
def send (s : State) : State :=
  if s.state = .connected then { s with expire := none } else s

/-- The pool has accepted the login, with or without the keepalive extension. -/
def parseLogin (keepAlive : Bool) (s : State) : State :=
  { s with
    failures := 0
    expire := if keepAlive then none else s.expire }

def expired (s : State) : Bool := s.expire.any fun expire => expire < env.now

def tick (s : State) : State :=
  match s.state with
  | .connected => if expired env s then close env s else s
  | .reconnecting => if expired env s then connect env s else s
  | .connecting => if expired env s then close env s else s
  | _ => s

/-- Connected, connecting or scheduled to reconnect, and not disconnected by the strategy. -/
structure Recovering (c : State) : Prop where
  wanted : c.failures ≠ -1
  started : c.state ≠ .unconnected
  scheduled : c.state = .reconnecting → c.expire.isSome = true

instance (c : State) : Decidable (Recovering c) :=
  decidable_of_iff (c.failures ≠ -1 ∧ c.state ≠ .unconnected ∧
      (c.state = .reconnecting → c.expire.isSome = true))
    ⟨fun h => ⟨h.1, h.2.1, h.2.2⟩, fun h => ⟨h.wanted, h.started, h.scheduled⟩⟩

/-- A disconnected client has no retry scheduled. One that waits for its retry while a lookup is
under way has lost its socket, so no login can take the retry from it. -/
structure Sound (c : State) : Prop where
  counted : -1 ≤ c.failures
  quiet : c.failures = -1 → c.state = .reconnecting → c.expire = none
  closed : c.state = .reconnecting → c.dns = true → c.socket = none
  waiting : c.state = .reconnecting → c.dns = true → c.failures ≠ -1 → c.expire.isSome = true

section Laws

variable {env : Env} {c : State}

theorem setState_cases (env : Env) (state : SocketState) (c : State) :
    (setState env state c).state = state ∧ (setState env state c).failures = c.failures ∧
      (setState env state c).dns = c.dns ∧ (setState env state c).socket = c.socket := by
  unfold setState
  split
  · next h => exact ⟨h, rfl, rfl, rfl⟩
  · exact ⟨rfl, rfl, rfl, rfl⟩

theorem Recovering.of_state (hwanted : c.failures ≠ -1) (hstarted : c.state ≠ .unconnected)
    (hstate : c.state ≠ .reconnecting) : Recovering c :=
  ⟨hwanted, hstarted, fun h => absurd h hstate⟩

theorem Sound.of_state (hcounted : -1 ≤ c.failures) (hstate : c.state ≠ .reconnecting) : Sound c :=
  ⟨hcounted, fun _ h => absurd h hstate, fun h => absurd h hstate, fun h => absurd h hstate⟩

theorem connect_failures (env : Env) (c : State) :
    (connect env c).state = .hostLookup ∧
      (connect env c).failures = if c.failures = -1 then 0 else c.failures := by
  obtain ⟨hstate, hfailures, -, -⟩ := setState_cases env .hostLookup c
  unfold connect resolve
  dsimp only
  rw [hfailures]
  exact ⟨hstate, rfl⟩

theorem connect_recovering (env : Env) (c : State) : Recovering (connect env c) := by
  obtain ⟨hstate, hfailures⟩ := connect_failures env c
  refine Recovering.of_state ?_ (by simp [hstate]) (by simp [hstate])
  rw [hfailures]
  split <;> omega

theorem connect_sound (h : Sound c) : Sound (connect env c) := by
  obtain ⟨hstate, hfailures⟩ := connect_failures env c
  refine Sound.of_state ?_ (by simp [hstate])
  rw [hfailures]
  have := h.counted
  split <;> omega

/-- Closing keeps the client's count, and it either starts or changes nothing. -/
theorem close_cases (env : Env) (c : State) :
    close env c = c ∨ (close env c).state = .closing ∧ (close env c).failures = c.failures := by
  obtain ⟨hstate, hfailures, -, -⟩ := setState_cases env .closing c
  unfold close
  split
  · exact Or.inl rfl
  · split
    · exact Or.inl rfl
    · exact Or.inr ⟨hstate, hfailures⟩
    · exact Or.inr ⟨hstate, hfailures⟩

theorem close_failures (env : Env) (c : State) : (close env c).failures = c.failures := by
  rcases close_cases env c with h | ⟨-, h⟩
  · rw [h]
  · exact h

theorem close_recovering (h : Recovering c) : Recovering (close env c) := by
  rcases close_cases env c with hc | ⟨hstate, hfailures⟩
  · rwa [hc]
  · exact Recovering.of_state (hfailures ▸ h.wanted) (by simp [hstate]) (by simp [hstate])

theorem close_sound (h : Sound c) : Sound (close env c) := by
  rcases close_cases env c with hc | ⟨hstate, hfailures⟩
  · rwa [hc]
  · exact Sound.of_state (hfailures ▸ h.counted) (by simp [hstate])

theorem disconnect_failures (env : Env) (c : State) : (disconnect env c).failures = -1 :=
  close_failures env _

theorem disconnect_sound (h : Sound c) : Sound (disconnect env c) :=
  close_sound ⟨Int.le_refl _, fun _ _ => rfl, h.closed, fun _ _ hne => absurd rfl hne⟩

/-- A client that was disconnected stays so; any other one counts a failure and is scheduled. -/
theorem reconnect_cases (env : Env)
    (hexpire : c.failures ≠ -1 → c.state = .reconnecting → c.expire.isSome = true) :
    c.failures = -1 ∧ reconnect env c = (c, -1) ∨
      c.failures ≠ -1 ∧ (reconnect env c).2 = c.failures + 1 ∧
        (reconnect env c).1.failures = c.failures + 1 ∧
        (reconnect env c).1.state = .reconnecting ∧ (reconnect env c).1.expire.isSome = true ∧
        (reconnect env c).1.dns = c.dns ∧ (reconnect env c).1.socket = c.socket := by
  unfold reconnect
  by_cases hfailures : c.failures = -1
  · exact Or.inl ⟨hfailures, if_pos hfailures⟩
  · obtain ⟨hstate, hsame, hdns', hsocket⟩ := setState_cases env .reconnecting c
    rw [if_neg hfailures]
    refine Or.inr ⟨hfailures, by dsimp only; rw [hsame], by dsimp only; rw [hsame], hstate, ?_,
      hdns', hsocket⟩
    change (setState env .reconnecting c).expire.isSome = true
    unfold setState
    split
    · next h => exact hexpire hfailures h
    · rfl

/-- What a report of failures leaves of the client. -/
structure Reported (c c' : State) (failures : ℤ) : Prop where
  sound : Sound c'
  ignored : c.failures = -1 → failures = -1 ∧ c'.failures = -1
  retried : c.failures ≠ -1 → failures ≠ -1 ∧ Recovering c'

theorem reconnect_reported {d : State} (h : Sound c) (hsame : d.failures = c.failures)
    (hexpire : d.failures ≠ -1 → d.state = .reconnecting → d.expire.isSome = true)
    (hquiet : d.failures = -1 → d.state = .reconnecting → d.expire = none)
    (hsocket : d.dns = true → d.socket = none) :
    Reported c (reconnect env d).1 (reconnect env d).2 := by
  have hcounted := h.counted
  rcases reconnect_cases env hexpire with
    ⟨hfailures, heq⟩ | ⟨hfailures, hreport, hcount, hstate, hsome, hdns, hsock⟩
  · rw [heq]
    have hcount : -1 ≤ d.failures := hsame ▸ hcounted
    refine ⟨⟨hcount, hquiet, fun _ => hsocket, fun _ _ hne => absurd hfailures hne⟩, ?_, ?_⟩
    · exact fun _ => ⟨rfl, hfailures⟩
    · exact fun hne => absurd (hsame ▸ hfailures) hne
  · refine ⟨⟨by omega, fun hminus => by omega, fun _ => ?_, fun _ _ _ => hsome⟩, ?_, ?_⟩
    · rw [hdns, hsock]
      exact hsocket
    · exact fun hminus => absurd (hsame.trans hminus) hfailures
    · exact fun _ => ⟨by omega, by omega, by simp [hstate], fun _ => hsome⟩

theorem onClose_reported (h : Sound c) :
    Reported c (onClose env c).1 (onClose env c).2 := by
  obtain ⟨hstate, hfailures, -, hsocket⟩ := setState_cases env .unconnected
    { c with
      socket := none
      closes := c.closes - 1 }
  refine reconnect_reported h hfailures ?_ ?_ fun _ => hsocket
  · intro _ hreconnecting
    rw [hstate] at hreconnecting
    cases hreconnecting
  · intro _ hreconnecting
    rw [hstate] at hreconnecting
    cases hreconnecting

theorem onResolved_failed (env : Env) (h : Sound c) (hdns : c.dns = true) :
    ∃ c' failures, onResolved env false c = (c', some failures) ∧ Reported c c' failures := by
  refine ⟨_, _, rfl, reconnect_reported h rfl ?_ h.quiet fun hdns => absurd hdns Bool.false_ne_true⟩
  exact fun hfailures hstate => h.waiting hstate hdns hfailures

theorem onResolved_ok (env : Env) (h : Sound c) :
    ∃ c', onResolved env true c = (c', none) ∧ Sound c' ∧ c'.failures = c.failures ∧
      (Recovering c → Recovering c') := by
  obtain ⟨hstate, hfailures, -, -⟩ := setState_cases env .connecting { c with dns := false }
  refine ⟨_, rfl, Sound.of_state ?_ ?_, hfailures, fun hrec => Recovering.of_state ?_ ?_ ?_⟩
  · exact hfailures.symm ▸ h.counted
  · change (setState env .connecting { c with dns := false }).state ≠ _
    simp [hstate]
  · exact hfailures.symm ▸ hrec.wanted
  · change (setState env .connecting { c with dns := false }).state ≠ _
    simp [hstate]
  · change (setState env .connecting { c with dns := false }).state ≠ _
    simp [hstate]

theorem onConnect_kept (ok : Bool) (h : Sound c) :
    Sound (onConnect env ok c) ∧ (onConnect env ok c).failures = c.failures ∧
      (Recovering c → Recovering (onConnect env ok c)) := by
  unfold onConnect
  split
  · obtain ⟨hstate, hfailures, -, -⟩ := setState_cases env .connected c
    refine ⟨Sound.of_state (hfailures ▸ h.counted) (by simp [hstate]), hfailures, fun hrec => ?_⟩
    exact Recovering.of_state (hfailures ▸ hrec.wanted) (by simp [hstate]) (by simp [hstate])
  · split
    · exact ⟨close_sound h, close_failures env c, close_recovering⟩
    · exact ⟨h, rfl, id⟩

theorem send_kept (h : Sound c) :
    Sound (send c) ∧ (send c).failures = c.failures ∧ (Recovering c → Recovering (send c)) := by
  unfold send
  split
  · next hstate =>
    refine ⟨Sound.of_state h.counted (by simp [hstate]), rfl, fun hrec => ?_⟩
    exact Recovering.of_state hrec.wanted (by simp [hstate]) (by simp [hstate])
  · exact ⟨h, rfl, id⟩

theorem tick_kept (h : Sound c) :
    Sound (tick env c) ∧ (tick env c).failures = c.failures ∧
      (Recovering c → Recovering (tick env c)) := by
  have hclose : Sound (close env c) ∧ (close env c).failures = c.failures ∧
      (Recovering c → Recovering (close env c)) :=
    ⟨close_sound h, close_failures env c, close_recovering⟩
  unfold tick
  split
  · split
    · exact hclose
    · exact ⟨h, rfl, id⟩
  · next hstate =>
    split
    · next hexpired =>
      have hwanted : c.failures ≠ -1 := by
        intro hminus
        simp [expired, h.quiet hminus hstate] at hexpired
      refine ⟨connect_sound h, ?_, fun _ => connect_recovering env c⟩
      rw [(connect_failures env c).2, if_neg hwanted]
    · exact ⟨h, rfl, id⟩
  · split
    · exact hclose
    · exact ⟨h, rfl, id⟩
  · exact ⟨h, rfl, id⟩

theorem parseLogin_sound (keepAlive : Bool) (h : Sound c) (hsocket : c.socket.isSome = true) :
    Sound (parseLogin keepAlive c) := by
  have hopen : c.state = .reconnecting → c.dns = true → False := by
    intro hstate hdns
    simp [h.closed hstate hdns] at hsocket
  refine ⟨?_, fun hminus => ?_, fun hstate hdns => (hopen hstate hdns).elim,
    fun hstate hdns => (hopen hstate hdns).elim⟩
  · exact (by decide : (-1 : ℤ) ≤ 0)
  · exact absurd hminus (by decide : (0 : ℤ) ≠ -1)

end Laws

end Client

namespace FailoverStrategy

structure Config where
  retries : ℤ
  retryPause : ℕ

structure State where
  clients : List Client.State
  index : ℕ := 0
  active : Option ℕ := none
  deriving DecidableEq

inductive Output where
  | pause
  | active (client : ℕ)
  deriving DecidableEq, Repr

def updateClient (client : ℕ) (f : Client.State → Client.State) (s : State) : State :=
  { s with clients := s.clients.modify client f }

variable (config : Config) (now : ℕ)

def env : Client.Env where
  now := now
  retryPause := config.retryPause * 1000

def connect (s : State) : State := updateClient s.index (Client.connect (env config now)) s

def leave (client : ℕ) : Handler State Output := fun s =>
  if s.active = some client then ({ s with active := none }, [.pause]) else (s, [])

/-- Moves on to the next pool when the last one tried has failed. -/
def advance (client : ℕ) (failures : ℤ) (s : State) : State :=
  if s.index = 0 ∧ failures < config.retries then s
  else if s.index = client ∧ 1 < s.clients.length - s.index then
    connect config now { s with index := s.index + 1 }
  else s

def onClose (client : ℕ) (failures : ℤ) : Handler State Output := fun s =>
  if failures = -1 then (s, [])
  else
    let (s, out) := leave client s
    (advance config now client failures s, out)

/-- All pools but the first and the active one are disconnected. -/
def keepActive (active : Option ℕ) (clients : List Client.State) : List Client.State :=
  clients.mapIdx fun i c =>
    if 1 ≤ i ∧ active ≠ some i then Client.disconnect (env config now) c else c

def onLoginSuccess (client : ℕ) : Handler State Output := fun s =>
  let active := if client = 0 ∨ s.active = none then some client else s.active
  let clients := keepActive config now active s.clients
  if active ≠ s.active then
    ({ s with
        clients := clients
        index := active.getD 0
        active := active }, [.active client])
  else ({ s with clients := clients }, [])

/-- What happens at the sockets of the clients. -/
inductive Event where
  | resolved (client : ℕ) (ok : Bool)
  | connected (client : ℕ) (ok : Bool)
  | sent (client : ℕ)
  | login (client : ℕ) (keepAlive : Bool)
  | lost (client : ℕ)
  | closed (client : ℕ)
  | tick (client : ℕ)
  deriving DecidableEq, Repr

/-- The client of an event. -/
def Event.client : Event → ℕ
  | .resolved client _ => client
  | .connected client _ => client
  | .sent client => client
  | .login client _ => client
  | .lost client => client
  | .closed client => client
  | .tick client => client

/-- Whether a client can meet the event: a lookup that is under way, a socket, a callback due. -/
def due (e : Event) (c : Client.State) : Bool :=
  match e with
  | .resolved _ _ => c.dns
  | .connected _ _ => c.socket.isSome
  | .login _ _ => c.socket.isSome
  | .closed _ => 0 < c.closes
  | _ => true

/-- What the event does to the client, and the failures that the client reports. -/
def react (e : Event) (c : Client.State) : Client.State × Option ℤ :=
  match e with
  | .resolved _ ok => Client.onResolved (env config now) ok c
  | .connected _ ok => (Client.onConnect (env config now) ok c, none)
  | .sent _ => (Client.send c, none)
  | .login _ keepAlive => (Client.parseLogin keepAlive c, none)
  | .lost _ => (Client.close (env config now) c, none)
  | .closed _ =>
      let (c, failures) := Client.onClose (env config now) c
      (c, some failures)
  | .tick _ => (Client.tick (env config now) c, none)

def respond (e : Event) (failures : Option ℤ) : Handler State Output :=
  match failures, e with
  | some failures, _ => onClose config now e.client failures
  | none, .login client _ => onLoginSuccess config now client
  | none, _ => Handler.skip

def handle (e : Event) : Handler State Output := fun s =>
  match s.clients[e.client]? with
  | none => (s, [])
  | some c =>
      if due e c then
        let (c, failures) := react config now e c
        respond config now e failures { s with clients := s.clients.set e.client c }
      else (s, [])

def create (pools : ℕ) : State where
  clients := List.replicate pools {}

/-- A strategy over so many pools, after its `connect`. -/
def machine (pools : ℕ) : Machine State (ℕ × Event) Output where
  init := connect config 0 (create pools)
  next s e := handle config e.1 e.2 s

/-- While no pool is active, every pool up to the current one is on its way back. -/
def Covered (s : State) : Prop :=
  s.active = none → ∀ (i : ℕ) c, i ≤ s.index → s.clients[i]? = some c → Client.Recovering c

/-- The event reports a loss. -/
def reports : Event → Bool
  | .resolved _ ok => !ok
  | .closed _ => true
  | _ => false

/-- The active pool is lost, and there were pools between it and the first one. -/
def LosesBackup (s : State) (e : Event) : Prop :=
  reports e = true ∧ 2 ≤ e.client ∧ s.active = some e.client ∧
    ∃ c, s.clients[e.client]? = some c ∧ due e c = true

/-- The first pool is never disconnected, and while a pool is active every other one is. -/
structure Ordered (s : State) : Prop where
  sound : ∀ (i : ℕ) c, s.clients[i]? = some c → Client.Sound c
  first : ∀ c, s.clients[0]? = some c → c.failures ≠ -1
  waiting : ∀ c, s.clients[0]? = some c → s.active ≠ some 0 → Client.Recovering c
  current : ∀ a, s.active = some a → s.index = a
  others : ∀ a, s.active = some a → ∀ (i : ℕ) c, s.clients[i]? = some c → 1 ≤ i →
    (c.failures = -1 ↔ i ≠ a)

section Steps

variable {config : Config} {now : ℕ} {s : State} {e : Event} {client : ℕ} {c c' : Client.State}

theorem getElem?_set_cases {l : List Client.State} {i j : ℕ} {d : Client.State}
    (h : (l.set i c')[j]? = some d) : j = i ∧ d = c' ∨ j ≠ i ∧ l[j]? = some d := by
  rw [List.getElem?_set] at h
  by_cases hij : i = j
  · rw [if_pos hij] at h
    split at h
    · exact Or.inl ⟨hij.symm, (Option.some.inj h).symm⟩
    · cases h
  · rw [if_neg hij] at h
    exact Or.inr ⟨Ne.symm hij, h⟩

theorem react_cases (config : Config) (now : ℕ) (hdue : due e c = true) (h : Client.Sound c) :
    (reports e = true ∧ ∃ failures, (react config now e c).2 = some failures ∧
      Client.Reported c (react config now e c).1 failures) ∨
    (reports e = false ∧ (∃ keepAlive, e = .login e.client keepAlive) ∧
      (react config now e c).2 = none ∧ Client.Sound (react config now e c).1 ∧
      (react config now e c).1.failures = 0) ∨
    (reports e = false ∧ (∀ i keepAlive, e ≠ .login i keepAlive) ∧
      (react config now e c).2 = none ∧ Client.Sound (react config now e c).1 ∧
      (react config now e c).1.failures = c.failures ∧
      (Client.Recovering c → Client.Recovering (react config now e c).1)) := by
  have hno : ∀ e : Event, (∀ i keepAlive, e ≠ .login i keepAlive) → reports e = false →
      (react config now e c).2 = none → (Client.Sound (react config now e c).1 ∧
        (react config now e c).1.failures = c.failures ∧
        (Client.Recovering c → Client.Recovering (react config now e c).1)) →
      reports e = false ∧ (∀ i keepAlive, e ≠ .login i keepAlive) ∧
        (react config now e c).2 = none ∧ Client.Sound (react config now e c).1 ∧
        (react config now e c).1.failures = c.failures ∧
        (Client.Recovering c → Client.Recovering (react config now e c).1) :=
    fun _ hlogin hreports hnone hkept => ⟨hreports, hlogin, hnone, hkept⟩
  cases e with
  | resolved client ok =>
      cases ok with
      | false =>
          obtain ⟨c', failures, heq, hreported⟩ :=
            Client.onResolved_failed (env config now) h hdue
          exact Or.inl ⟨rfl, failures, by rw [react, heq], by rw [react, heq]; exact hreported⟩
      | true =>
          obtain ⟨c', heq, hkept⟩ := Client.onResolved_ok (env config now) h
          refine Or.inr (Or.inr (hno _ (by simp) rfl ?_ ?_))
          · rw [react, heq]
          · rw [react, heq]
            exact hkept
  | connected client ok =>
      exact Or.inr (Or.inr (hno _ (by simp) rfl rfl (Client.onConnect_kept ok h)))
  | sent client => exact Or.inr (Or.inr (hno _ (by simp) rfl rfl (Client.send_kept h)))
  | login client keepAlive =>
      exact Or.inr (Or.inl ⟨rfl, ⟨keepAlive, rfl⟩, rfl,
        Client.parseLogin_sound keepAlive h hdue, rfl⟩)
  | lost client =>
      exact Or.inr (Or.inr (hno _ (by simp) rfl rfl
        ⟨Client.close_sound h, Client.close_failures _ c, Client.close_recovering⟩))
  | closed client => exact Or.inl ⟨rfl, _, rfl, Client.onClose_reported h⟩
  | tick client => exact Or.inr (Or.inr (hno _ (by simp) rfl rfl (Client.tick_kept h)))

/-- A client that reports nothing keeps its place. -/
theorem Ordered.kept (h : Ordered s) (hc : s.clients[client]? = some c) (hsound : Client.Sound c')
    (hfailures : c'.failures = c.failures)
    (hrec : Client.Recovering c → Client.Recovering c') :
    Ordered { s with clients := s.clients.set client c' } where
  sound := fun i d hd => by
    rcases getElem?_set_cases hd with ⟨-, rfl⟩ | ⟨-, hd⟩
    · exact hsound
    · exact h.sound i d hd
  first := fun d hd => by
    rcases getElem?_set_cases hd with ⟨rfl, rfl⟩ | ⟨-, hd⟩
    · exact hfailures.symm ▸ h.first c hc
    · exact h.first d hd
  waiting := fun d hd hactive => by
    rcases getElem?_set_cases hd with ⟨rfl, rfl⟩ | ⟨-, hd⟩
    · exact hrec (h.waiting c hc hactive)
    · exact h.waiting d hd hactive
  current := h.current
  others := fun a ha i d hd hi => by
    rcases getElem?_set_cases hd with ⟨rfl, rfl⟩ | ⟨-, hd⟩
    · rw [hfailures]
      exact h.others a ha i c hc hi
    · exact h.others a ha i d hd hi

theorem Covered.kept (h : Covered s) (hc : s.clients[client]? = some c)
    (hrec : Client.Recovering c → Client.Recovering c') :
    Covered { s with clients := s.clients.set client c' } := by
  intro hactive i d hi hd
  rcases getElem?_set_cases hd with ⟨rfl, rfl⟩ | ⟨-, hd⟩
  · exact hrec (h hactive i c hi hc)
  · exact h hactive i d hi hd

theorem getElem?_keepActive {active : Option ℕ} {l : List Client.State} {i : ℕ} {d : Client.State}
    (h : (keepActive config now active l)[i]? = some d) :
    ∃ c, l[i]? = some c ∧
      (1 ≤ i ∧ active ≠ some i ∧ d = Client.disconnect (env config now) c ∨
        ¬ (1 ≤ i ∧ active ≠ some i) ∧ d = c) := by
  unfold keepActive at h
  rw [List.getElem?_mapIdx] at h
  obtain ⟨c, hc, rfl⟩ := Option.map_eq_some_iff.mp h
  refine ⟨c, hc, ?_⟩
  by_cases hcond : 1 ≤ i ∧ active ≠ some i
  · exact Or.inl ⟨hcond.1, hcond.2, if_pos hcond⟩
  · exact Or.inr ⟨hcond, if_neg hcond⟩

theorem onLoginSuccess_eq (config : Config) (now client : ℕ) (s : State) :
    ∃ a, (onLoginSuccess config now client s).1.active = some a ∧
      (a = client ∨ s.active = some a) ∧ (client = 0 → a = 0) ∧
      (onLoginSuccess config now client s).1.clients = keepActive config now (some a) s.clients ∧
      ((onLoginSuccess config now client s).1.index = a ∨
        s.active = some a ∧ (onLoginSuccess config now client s).1.index = s.index) := by
  unfold onLoginSuccess
  dsimp only
  by_cases hnew : client = 0 ∨ s.active = none
  · rw [if_pos hnew]
    split
    · exact ⟨client, rfl, Or.inl rfl, id, rfl, Or.inl rfl⟩
    · next hsame =>
      have hsame : s.active = some client := by simpa using Eq.symm (not_not.mp hsame)
      exact ⟨client, hsame, Or.inl rfl, id, rfl, Or.inr ⟨hsame, rfl⟩⟩
  · rw [if_neg hnew, if_neg (by simp)]
    obtain ⟨a, ha⟩ := Option.ne_none_iff_exists'.mp fun hnone => hnew (Or.inr hnone)
    exact ⟨a, ha, Or.inr ha, fun hzero => absurd (Or.inl hzero) hnew, by rw [ha],
      Or.inr ⟨ha, rfl⟩⟩

/-- A login leaves one pool active and disconnects every other one but the first. -/
theorem Ordered.login (h : Ordered s) (hc : s.clients[client]? = some c)
    (hsound : Client.Sound c') (hfailures : c'.failures = 0) :
    Ordered (onLoginSuccess config now client
        { s with clients := s.clients.set client c' }).1 ∧
      (onLoginSuccess config now client
        { s with clients := s.clients.set client c' }).1.active ≠ none := by
  obtain ⟨a, hactive, hwhich, hzero, hclients, hindex⟩ :=
    onLoginSuccess_eq config now client { s with clients := s.clients.set client c' }
  have hwanted : ∀ (i : ℕ) d, (s.clients.set client c')[i]? = some d → (i = 0 ∨ i = a) →
      d.failures ≠ -1 := by
    intro i d hd hi
    rcases getElem?_set_cases hd with ⟨rfl, rfl⟩ | ⟨hne, hd⟩
    · omega
    · rcases hi with rfl | rfl
      · exact h.first d hd
      · by_cases hpos : 1 ≤ i
        · have hcurrent : s.active = some i := hwhich.resolve_left hne
          exact fun hminus => (h.others i hcurrent i d hd hpos).mp hminus rfl
        · obtain rfl : i = 0 := by omega
          exact h.first d hd
  have hget : ∀ (i : ℕ) d,
      (onLoginSuccess config now client
        { s with clients := s.clients.set client c' }).1.clients[i]? = some d →
      ∃ d', (s.clients.set client c')[i]? = some d' ∧
        (1 ≤ i ∧ i ≠ a ∧ d = Client.disconnect (env config now) d' ∨ (i = 0 ∨ i = a) ∧ d = d') := by
    intro i d hd
    rw [hclients] at hd
    obtain ⟨d', hd', hcases⟩ := getElem?_keepActive hd
    refine ⟨d', hd', hcases.imp (fun hcase => ?_) fun hcase => ⟨?_, hcase.2⟩⟩
    · exact ⟨hcase.1, fun hia => hcase.2.1 (by rw [hia]), hcase.2.2⟩
    · by_contra hne
      push Not at hne
      exact hcase.1 ⟨Nat.one_le_iff_ne_zero.mpr hne.1, fun heq => hne.2 (Option.some.inj heq).symm⟩
  refine ⟨⟨?_, ?_, ?_, ?_, ?_⟩, by simp [hactive]⟩
  · intro i d hd
    obtain ⟨d', hd', hcases⟩ := hget i d hd
    have hsound' : Client.Sound d' := by
      rcases getElem?_set_cases hd' with ⟨-, rfl⟩ | ⟨-, hd'⟩
      · exact hsound
      · exact h.sound i d' hd'
    rcases hcases with ⟨-, -, rfl⟩ | ⟨-, rfl⟩
    · exact Client.disconnect_sound hsound'
    · exact hsound'
  · intro d hd
    obtain ⟨d', hd', ⟨hpos, -, -⟩ | ⟨-, rfl⟩⟩ := hget 0 d hd
    · omega
    · exact hwanted 0 d hd' (Or.inl rfl)
  · intro d hd hne
    have ha : a ≠ 0 := fun hzero => hne (hactive.trans (by rw [hzero]))
    obtain ⟨d', hd', ⟨hpos, -, -⟩ | ⟨-, rfl⟩⟩ := hget 0 d hd
    · omega
    · have hclient : client ≠ 0 := fun h0 => ha (hzero h0)
      rcases getElem?_set_cases hd' with ⟨h0, -⟩ | ⟨-, hd'⟩
      · exact absurd h0.symm hclient
      · refine h.waiting d hd' fun hwas => ?_
        have hnot : ¬ (client = 0 ∨ s.active = none) := by
          rintro (h0 | h0)
          · exact hclient h0
          · rw [h0] at hwas
            cases hwas
        have : (onLoginSuccess config now client
            { s with clients := s.clients.set client c' }).1.active = some 0 := by
          unfold onLoginSuccess
          dsimp only
          rw [if_neg hnot]
          split
          · exact hwas
          · exact hwas
        rw [hactive] at this
        exact ha (Option.some.inj this)
  · intro b hb
    rw [hactive] at hb
    cases hb
    rcases hindex with hindex | ⟨hsame, hindex⟩
    · exact hindex
    · exact hindex.trans (h.current a hsame)
  · intro b hb i d hd hi
    rw [hactive] at hb
    cases hb
    obtain ⟨d', hd', ⟨-, hne, rfl⟩ | ⟨hia, rfl⟩⟩ := hget i d hd
    · exact ⟨fun _ => hne, fun _ => Client.disconnect_failures _ d'⟩
    · have hia : i = a := hia.resolve_left (by omega)
      exact ⟨fun hminus => absurd hminus (hwanted i d hd' (Or.inr hia)), fun hne => absurd hia hne⟩

theorem advance_cases (config : Config) (now client : ℕ) (failures : ℤ) (s : State) :
    advance config now client failures s = s ∨
      s.index = client ∧
        advance config now client failures s =
          { s with
            clients := s.clients.modify (s.index + 1) (Client.connect (env config now))
            index := s.index + 1 } := by
  unfold advance
  split
  · exact Or.inl rfl
  · split
    · next h => exact Or.inr ⟨h.1, rfl⟩
    · exact Or.inl rfl

theorem getElem?_modify_cases {l : List Client.State} {i j : ℕ} {d : Client.State}
    {f : Client.State → Client.State} (h : (l.modify i f)[j]? = some d) :
    (∃ d', j = i ∧ l[j]? = some d' ∧ d = f d') ∨ j ≠ i ∧ l[j]? = some d := by
  rw [List.getElem?_modify] at h
  obtain ⟨d', hd', rfl⟩ := Option.map_eq_some_iff.mp h
  by_cases hij : i = j
  · rw [if_pos hij]
    exact Or.inl ⟨d', hij.symm, hd', rfl⟩
  · rw [if_neg hij]
    exact Or.inr ⟨Ne.symm hij, hd'⟩

/-- Turning to the next pool changes that pool only, and only when none is active. -/
theorem Ordered.advance {failures : ℤ} (h : Ordered s) (hne : s.active ≠ some client) :
    Ordered (advance config now client failures s) := by
  rcases advance_cases config now client failures s with heq | ⟨hindex, heq⟩
  · rwa [heq]
  · rw [heq]
    have hnone : s.active = none := by
      by_contra hsome
      obtain ⟨a, ha⟩ := Option.ne_none_iff_exists'.mp hsome
      exact hne (ha.trans (by rw [← h.current a ha, hindex]))
    refine ⟨?_, ?_, ?_, fun a ha => ?_, fun a ha => ?_⟩
    · intro i d hd
      rcases getElem?_modify_cases hd with ⟨d', -, hd', rfl⟩ | ⟨-, hd⟩
      · exact Client.connect_sound (h.sound i d' hd')
      · exact h.sound i d hd
    · intro d hd
      rcases getElem?_modify_cases hd with ⟨d', -, -, rfl⟩ | ⟨-, hd⟩
      · exact (Client.connect_recovering _ d').wanted
      · exact h.first d hd
    · intro d hd hactive
      rcases getElem?_modify_cases hd with ⟨d', -, -, rfl⟩ | ⟨-, hd⟩
      · exact Client.connect_recovering _ d'
      · exact h.waiting d hd hactive
    · rw [hnone] at ha
      cases ha
    · rw [hnone] at ha
      cases ha

theorem Covered.advance {failures : ℤ} (h : Covered s) :
    Covered (advance config now client failures s) := by
  rcases advance_cases config now client failures s with heq | ⟨-, heq⟩
  · rwa [heq]
  · rw [heq]
    intro hactive i d hi hd
    rcases getElem?_modify_cases hd with ⟨d', -, -, rfl⟩ | ⟨hne, hd⟩
    · exact Client.connect_recovering _ d'
    · have hi : i ≤ s.index + 1 := hi
      exact h hactive i d (by omega) hd

/-- The state in which a loss leaves the strategy before it turns to the next pool. -/
def dropped (client : ℕ) (c' : Client.State) (s : State) : State :=
  { s with
    clients := s.clients.set client c'
    active := if s.active = some client then none else s.active }

theorem onClose_cases (config : Config) (now client : ℕ) (failures : ℤ)
    (s : State) (c' : Client.State) :
    failures = -1 ∧ (onClose config now client failures
        { s with clients := s.clients.set client c' }).1 =
          { s with clients := s.clients.set client c' } ∨
      failures ≠ -1 ∧ (onClose config now client failures
        { s with clients := s.clients.set client c' }).1 =
          advance config now client failures (dropped client c' s) := by
  unfold onClose dropped leave
  by_cases hfailures : failures = -1
  · exact Or.inl ⟨hfailures, by rw [if_pos hfailures]⟩
  · refine Or.inr ⟨hfailures, ?_⟩
    rw [if_neg hfailures]
    dsimp only
    split <;> rfl

theorem dropped_active (client : ℕ) (c' : Client.State) (s : State) :
    (dropped client c' s).active ≠ some client := by
  unfold dropped
  dsimp only
  split
  · simp
  · assumption

theorem Ordered.dropped (h : Ordered s) (hc : s.clients[client]? = some c)
    (hwanted : c.failures ≠ -1) (hsound : Client.Sound c') (hrec : Client.Recovering c') :
    Ordered (dropped client c' s) := by
  have hactive : ∀ {a}, (FailoverStrategy.dropped client c' s).active = some a →
      s.active = some a ∧ a ≠ client := by
    intro a ha
    unfold FailoverStrategy.dropped at ha
    dsimp only at ha
    split at ha
    · cases ha
    · next hne => exact ⟨ha, fun heq => hne (heq ▸ ha)⟩
  refine ⟨?_, ?_, ?_, ?_, ?_⟩
  · intro i d hd
    rcases getElem?_set_cases hd with ⟨-, rfl⟩ | ⟨-, hd⟩
    · exact hsound
    · exact h.sound i d hd
  · intro d hd
    rcases getElem?_set_cases hd with ⟨-, rfl⟩ | ⟨-, hd⟩
    · exact hrec.wanted
    · exact h.first d hd
  · intro d hd hne
    rcases getElem?_set_cases hd with ⟨-, rfl⟩ | ⟨hclient, hd⟩
    · exact hrec
    · refine h.waiting d hd fun hzero => hne ?_
      unfold FailoverStrategy.dropped
      dsimp only
      rw [if_neg (fun heq => hclient (Option.some.inj (hzero.symm.trans heq))), hzero]
  · intro a ha
    exact h.current a (hactive ha).1
  · intro a ha i d hd hi
    obtain ⟨hcurrent, hne⟩ := hactive ha
    rcases getElem?_set_cases hd with ⟨rfl, -⟩ | ⟨-, hd⟩
    · -- A pool other than the first and the active one is disconnected, and reports nothing.
      exact absurd ((h.others a hcurrent i c hc hi).mpr (Ne.symm hne)) hwanted
    · exact h.others a hcurrent i d hd hi

theorem Ordered.report {failures : ℤ} (h : Ordered s) (hc : s.clients[client]? = some c)
    (hreported : Client.Reported c c' failures) :
    Ordered (onClose config now client failures
      { s with clients := s.clients.set client c' }).1 := by
  by_cases hminus : c.failures = -1
  · obtain ⟨hfailures, hsame⟩ := hreported.ignored hminus
    rcases onClose_cases config now client failures s c' with
      ⟨-, heq⟩ | ⟨hne, -⟩
    · rw [heq]
      exact h.kept hc hreported.sound (hsame.trans hminus.symm) fun hrec =>
        absurd hminus hrec.wanted
    · exact absurd hfailures hne
  · obtain ⟨hfailures, hrec⟩ := hreported.retried hminus
    rcases onClose_cases config now client failures s c' with
      ⟨heq, -⟩ | ⟨-, heq⟩
    · exact absurd heq hfailures
    · rw [heq]
      exact (h.dropped hc hminus hreported.sound hrec).advance (dropped_active client c' s)

/-- The loss of one of the first two pools leaves every pool so far on its way back. -/
theorem Covered.report {failures : ℤ} (h : Covered s) (hordered : Ordered s)
    (hc : s.clients[client]? = some c) (hreported : Client.Reported c c' failures)
    (hfirst : s.active = some client → client < 2) :
    Covered (onClose config now client failures
      { s with clients := s.clients.set client c' }).1 := by
  by_cases hminus : c.failures = -1
  · obtain ⟨hfailures, -⟩ := hreported.ignored hminus
    rcases onClose_cases config now client failures s c' with
      ⟨-, heq⟩ | ⟨hne, -⟩
    · rw [heq]
      exact h.kept hc fun hrec => absurd hminus hrec.wanted
    · exact absurd hfailures hne
  · obtain ⟨hfailures, hrec⟩ := hreported.retried hminus
    rcases onClose_cases config now client failures s c' with
      ⟨heq, -⟩ | ⟨-, heq⟩
    · exact absurd heq hfailures
    · rw [heq]
      refine Covered.advance fun hactive i d hi hd => ?_
      rcases getElem?_set_cases hd with ⟨-, rfl⟩ | ⟨hne, hd⟩
      · exact hrec
      · by_cases hlost : s.active = some client
        · have hi : i ≤ s.index := hi
          rw [hordered.current client hlost] at hi
          have := hfirst hlost
          obtain rfl : i = 0 := by omega
          refine hordered.waiting d hd fun hzero => hne ?_
          exact (Option.some.inj (hlost.symm.trans hzero)).symm
        · refine h ?_ i d hi hd
          unfold FailoverStrategy.dropped at hactive
          dsimp only at hactive
          rwa [if_neg hlost] at hactive

/-- The loss of a later pool leaves the second one disconnected. -/
theorem not_covered_report {failures : ℤ} (hordered : Ordered s)
    (hc : s.clients[client]? = some c) (hreported : Client.Reported c c' failures)
    (hlost : s.active = some client) (hlater : 2 ≤ client) :
    ¬ Covered (onClose config now client failures
      { s with clients := s.clients.set client c' }).1 := by
  intro hcovered
  have hminus : c.failures ≠ -1 := fun hminus =>
    (hordered.others client hlost client c hc (by omega)).mp hminus rfl
  obtain ⟨hfailures, -⟩ := hreported.retried hminus
  have hlength : client < s.clients.length := (List.getElem?_eq_some_iff.mp hc).1
  have hsecond : s.clients[1]? = some s.clients[1] := List.getElem?_eq_getElem (by omega)
  have hdisconnected : (s.clients[1]).failures = -1 :=
    (hordered.others client hlost 1 _ hsecond (Nat.le_refl 1)).mpr (by omega)
  have hindex := hordered.current client hlost
  have hset : (s.clients.set client c')[1]? = some s.clients[1] := by
    rw [List.getElem?_set_ne (by omega), hsecond]
  rcases onClose_cases config now client failures s c' with
    ⟨heq, -⟩ | ⟨-, heq⟩
  · exact hfailures heq
  · rw [heq] at hcovered
    have hnone : (FailoverStrategy.dropped client c' s).active = none := if_pos hlost
    rcases advance_cases config now client failures (FailoverStrategy.dropped client c' s) with
      heq | ⟨-, heq⟩
    · rw [heq] at hcovered
      have hi : 1 ≤ (FailoverStrategy.dropped client c' s).index := by
        change 1 ≤ s.index
        omega
      exact (hcovered hnone 1 _ hi hset).wanted hdisconnected
    · rw [heq] at hcovered
      have hmodify : ((FailoverStrategy.dropped client c' s).clients.modify
          ((FailoverStrategy.dropped client c' s).index + 1)
          (Client.connect (env config now)))[1]? = some s.clients[1] := by
        rw [List.getElem?_modify_ne _ _ (by change s.index + 1 ≠ 1; omega)]
        exact hset
      refine (hcovered hnone 1 _ ?_ hmodify).wanted hdisconnected
      change 1 ≤ s.index + 1
      omega

end Steps

section Runs

variable {config : Config} {pools : ℕ} {es : ℕ → ℕ × Event}

theorem handle_spec (config : Config) (now : ℕ) (e : Event) {s : State} (h : Ordered s) :
    Ordered (handle config now e s).1 ∧
      (¬ LosesBackup s e → Covered s → Covered (handle config now e s).1) ∧
      (LosesBackup s e → ¬ Covered (handle config now e s).1) := by
  unfold handle
  split
  · next hnone =>
    refine ⟨h, fun _ => id, fun hlost => ?_⟩
    obtain ⟨-, -, -, c, hc, -⟩ := hlost
    rw [hnone] at hc
    cases hc
  · next c hc =>
    by_cases hdue : due e c = true
    · rw [if_pos hdue]
      dsimp only
      rcases react_cases config now hdue (h.sound _ c hc) with
        ⟨hreports, failures, hsome, hreported⟩ | ⟨hreports, ⟨keepAlive, hlogin⟩,
          hnone, hsound, hzero⟩ |
        ⟨hreports, hlogin, hnone, hsound, hsame, hrec⟩
      · rw [hsome]
        refine ⟨h.report hc hreported, fun hkept hcovered => ?_, fun hlost => ?_⟩
        · refine hcovered.report h hc hreported fun hactive => ?_
          by_contra hlater
          exact hkept ⟨hreports, by omega, hactive, c, hc, hdue⟩
        · exact not_covered_report h hc hreported hlost.2.2.1 hlost.2.1
      · rw [hnone]
        have hrespond : respond config now e none = onLoginSuccess config now e.client := by
          rw [hlogin]
          rfl
        rw [hrespond]
        obtain ⟨hordered, hactive⟩ := h.login hc hsound hzero
        refine ⟨hordered, fun _ _ hnone => absurd hnone hactive, fun hlost => ?_⟩
        exact absurd hlost.1 (by simp [hreports])
      · rw [hnone]
        have hrespond : respond config now e none = Handler.skip := by
          cases e with
          | login client keepAlive => exact absurd rfl (hlogin client keepAlive)
          | _ => rfl
        rw [hrespond]
        refine ⟨h.kept hc hsound hsame hrec, fun _ hcovered =>
          hcovered.kept hc hrec, fun hlost => ?_⟩
        exact absurd hlost.1 (by simp [hreports])
    · rw [if_neg hdue]
      refine ⟨h, fun _ => id, fun hlost => ?_⟩
      obtain ⟨-, -, -, d, hd, hdue'⟩ := hlost
      rw [hc] at hd
      cases hd
      exact absurd hdue' hdue

theorem ordered_init (config : Config) (pools : ℕ) :
    Ordered (machine config pools).init ∧ Covered (machine config pools).init := by
  have hfresh : Client.Sound {} := Client.Sound.of_state (by decide) (by decide)
  have hat : ∀ {i : ℕ} {d}, (machine config pools).init.clients[i]? = some d →
      i = 0 ∧ Client.Recovering d ∧ Client.Sound d ∨ i ≠ 0 ∧ d = {} := by
    intro i d hd
    rcases getElem?_modify_cases hd with ⟨d', hi, hd', rfl⟩ | ⟨hi, hd⟩
    · obtain rfl : d' = {} := List.eq_of_mem_replicate (List.mem_of_getElem? hd')
      exact Or.inl ⟨hi, Client.connect_recovering _ _, Client.connect_sound hfresh⟩
    · exact Or.inr ⟨hi, List.eq_of_mem_replicate (List.mem_of_getElem? hd)⟩
  refine ⟨⟨?_, ?_, ?_, fun a ha => ?_, fun a ha => ?_⟩, ?_⟩
  · intro i d hd
    rcases hat hd with ⟨-, -, hsound⟩ | ⟨-, rfl⟩
    · exact hsound
    · exact hfresh
  · intro d hd
    rcases hat hd with ⟨-, hrec, -⟩ | ⟨hne, -⟩
    · exact hrec.wanted
    · exact absurd rfl hne
  · intro d hd _
    rcases hat hd with ⟨-, hrec, -⟩ | ⟨hne, -⟩
    · exact hrec
    · exact absurd rfl hne
  · cases ha
  · cases ha
  · intro _ i d hi hd
    obtain rfl : i = 0 := Nat.le_zero.mp hi
    rcases hat hd with ⟨-, hrec, -⟩ | ⟨hne, -⟩
    · exact hrec
    · exact absurd rfl hne

theorem ordered (config : Config) (pools : ℕ) (es : ℕ → ℕ × Event) (k : ℕ) :
    Ordered ((machine config pools).state es k) :=
  Machine.invariant (ordered_init config pools).1 (fun _ e h => (handle_spec config e.1 e.2 h).1) k

/-- The strategy keeps every pool that it has tried on its way back in exactly those runs in
which it never loses an active pool after the second one. -/
theorem recovers_iff (config : Config) (pools : ℕ) (es : ℕ → ℕ × Event) (k : ℕ) :
    (∀ j ≤ k, Covered ((machine config pools).state es j)) ↔
      ∀ j < k, ¬ LosesBackup ((machine config pools).state es j) (es j).2 := by
  constructor
  · intro h j hj hlost
    exact (handle_spec config (es j).1 (es j).2 (ordered config pools es j)).2.2
      hlost (h (j + 1) hj)
  · intro h j hj
    induction j with
    | zero => exact (ordered_init config pools).2
    | succ j ih =>
        exact (handle_spec config (es j).1 (es j).2 (ordered config pools es j)).2.1
          (h j hj) (ih (by omega))

/-- Pools 0 and 1 fail and retry, pool 2 takes over and is lost: pool 1 is not tried again. -/
def abandoned : List (ℕ × Event) :=
  [(1, .resolved 0 false), (2, .resolved 1 false), (6000, .tick 1), (6001, .resolved 1 true),
    (6002, .resolved 2 true), (6003, .connected 2 true), (6004, .login 2 false),
    (6005, .closed 1), (6006, .lost 2), (6007, .closed 2)]

theorem second_pool_abandoned :
    ((machine ⟨1, 5⟩ 3).state (follow abandoned (6008, .tick 1)) 10).active = none ∧
      ((machine ⟨1, 5⟩ 3).state (follow abandoned (6008, .tick 1)) 10).index = 2 ∧
      ((machine ⟨1, 5⟩ 3).state (follow abandoned (6008, .tick 1)) 10).clients[1]? =
        some { state := .unconnected, failures := -1, expire := none } ∧
      ¬ Covered ((machine ⟨1, 5⟩ 3).state (follow abandoned (6008, .tick 1)) 10) := by
  refine ⟨by decide, by decide, by decide, fun hcovered => ?_⟩
  have hsecond : Client.Recovering { state := .unconnected, failures := -1, expire := none } :=
    hcovered (by decide) 1 _ (by decide) (by decide)
  exact hsecond.wanted rfl

end Runs

end FailoverStrategy

end XmrigProxy
