import XmrigProxy.DaemonClient

/-! The strategy over the daemon clients of a configuration: one pool on its own, or several
pools of which the first one that works is active. Clients are numbered by their place. -/
namespace XmrigProxy.PoolStrategy

structure State where
  clients : List DaemonClient.State
  retries : ℕ
  index : ℕ := 0
  active : Option ℕ := none

def createStrategy (pools retries : ℕ) : State where
  clients := (List.range pools).map fun id => { id }
  retries := retries

/-- One enabled pool gets a strategy of its own, which has no other client to turn to. -/
def isSingle (s : State) : Bool := s.clients.length = 1

def updateClient (client : ℕ) (f : DaemonClient.State → DaemonClient.State) (s : State) : State :=
  { s with clients := s.clients.modify client f }

def connect (s : State) : State := updateClient s.index DaemonClient.connect s

/-- The number of the client that a submission goes to. -/
def submitTo (s : State) : Option ℕ := if isSingle s then some 0 else s.active

def submitClient (s : State) : Option DaemonClient.State :=
  (submitTo s).bind fun client => s.clients[client]?

/-- A submission trims the contexts of the client that it goes to. -/
def trimContexts (now : ℕ) (s : State) : State :=
  match submitTo s with
  | none => s
  | some client =>
      updateClient client
        (fun c => { c with contexts := DaemonClient.trimContexts now c.contexts }) s

/-- Also tells whether the strategy was active, and pauses. -/
def onClose (client failures : ℕ) (s : State) : State × Bool :=
  if isSingle s then ({ s with active := none }, s.active.isSome)
  else
    let paused := s.active = some client
    let s := if paused then { s with active := none } else s
    if s.index = 0 ∧ failures < s.retries then (s, paused)
    else if s.index = client ∧ 1 < s.clients.length - s.index then
      (connect { s with index := s.index + 1 }, paused)
    else (s, paused)

/-- All pools but the first and the active one are disconnected. -/
def keepActive (active : Option ℕ) (clients : List DaemonClient.State) : List DaemonClient.State :=
  clients.mapIdx fun i c => if 1 ≤ i ∧ active ≠ some i then DaemonClient.disconnect c else c

/-- Also tells whether another client is active now. -/
def onLoginSuccess (client : ℕ) (s : State) : State × Bool :=
  if isSingle s then ({ s with active := some 0 }, true)
  else
    let active := if client = 0 ∨ s.active = none then some client else s.active
    let clients := keepActive active s.clients
    if active ≠ s.active then ({ s with clients, index := active.getD 0, active }, true)
    else ({ s with clients }, false)

/-- Whether a job of the client is passed on. -/
def onJobReceived (client : ℕ) (s : State) : Bool := isSingle s || s.active = some client

structure Installed where
  strategy : State
  activated : Bool := false
  delivered : Bool := false

/-- A client derives a job from a template. The first one completes the client's login, in which
it may lose its contexts again. -/
def installTemplate (now : ℕ) (client : ℕ) (context : DaemonClient.JobContext) (s : State) :
    Installed :=
  match s.clients[client]? with
  | none => { strategy := s }
  | some c =>
      if c.state = .unconnected ∨ (DaemonClient.findContext context.jobId c.contexts).isSome then
        { strategy := s }
      else
        let installed := updateClient client (DaemonClient.installContext now context) s
        let (s, activated) := if c.state = .connecting then onLoginSuccess client installed
          else (installed, false)
        { strategy := s, activated, delivered := onJobReceived client s }

section Consistency

/-- Only connected clients have contexts, and an active client is connected. -/
structure Consistent (s : State) : Prop where
  idle : ∀ (i : ℕ) c, s.clients[i]? = some c → c.state ≠ .connected → c.contexts = []
  active : ∀ a, s.active = some a → ∃ c, s.clients[a]? = some c ∧ c.state = .connected
  single : isSingle s = true → ∀ (i : ℕ) c, s.clients[i]? = some c → c.state = .connected →
    s.active = some i

variable {s : State}

theorem getElem?_updateClient (client i : ℕ) (f : DaemonClient.State → DaemonClient.State)
    (s : State) :
    (updateClient client f s).clients[i]? =
      if client = i then (s.clients[i]?).map f else s.clients[i]? := by
  unfold updateClient
  rw [List.getElem?_modify]
  split
  · rfl
  · simp

theorem isSingle_updateClient (client : ℕ) (f : DaemonClient.State → DaemonClient.State)
    (s : State) : isSingle (updateClient client f s) = isSingle s := by
  simp [isSingle, updateClient]

theorem single_index (hsingle : isSingle s = true) {i : ℕ} {c : DaemonClient.State}
    (hc : s.clients[i]? = some c) : i = 0 := by
  obtain ⟨hlt, -⟩ := List.getElem?_eq_some_iff.mp hc
  simp only [isSingle, decide_eq_true_eq] at hsingle
  omega

theorem Consistent.submitTo (h : Consistent s) {a : ℕ} (ha : s.active = some a) :
    submitTo s = some a := by
  unfold PoolStrategy.submitTo
  split
  · next hsingle =>
      obtain ⟨c, hc, -⟩ := h.active a ha
      rw [single_index hsingle hc]
  · exact ha

/-- A client may do whatever leaves it in the same state of its connection. -/
theorem Consistent.updateClient (h : Consistent s) {client : ℕ}
    {f : DaemonClient.State → DaemonClient.State}
    (hstate : ∀ c, s.clients[client]? = some c → (f c).state = c.state)
    (hidle : ∀ c, s.clients[client]? = some c → c.state ≠ .connected → c.contexts = [] →
      (f c).contexts = []) : Consistent (updateClient client f s) := by
  have hat : ∀ {i : ℕ} {c}, (PoolStrategy.updateClient client f s).clients[i]? = some c →
      ∃ c₀, s.clients[i]? = some c₀ ∧ c.state = c₀.state ∧
        (c₀.state ≠ .connected → c₀.contexts = [] → c.contexts = []) := by
    intro i c hc
    rw [getElem?_updateClient] at hc
    split at hc
    · next heq =>
        obtain ⟨c₀, hc₀, rfl⟩ := Option.map_eq_some_iff.mp hc
        rw [← heq] at hc₀
        exact ⟨c₀, heq ▸ hc₀, hstate c₀ hc₀, hidle c₀ hc₀⟩
    · exact ⟨c, hc, rfl, fun _ hnil => hnil⟩
  constructor
  case idle =>
    intro i c hc hne
    obtain ⟨c₀, hc₀, hsame, hnil⟩ := hat hc
    exact hnil (hsame ▸ hne) (h.idle i c₀ hc₀ (hsame ▸ hne))
  case active =>
    intro a ha
    obtain ⟨c, hc, hconnected⟩ := h.active a ha
    rw [getElem?_updateClient, hc]
    split
    · next heq => exact ⟨f c, rfl, (hstate c (heq ▸ hc)).trans hconnected⟩
    · exact ⟨c, rfl, hconnected⟩
  case single =>
    intro hsingle i c hc hconnected
    rw [isSingle_updateClient] at hsingle
    obtain ⟨c₀, hc₀, hsame, -⟩ := hat hc
    exact h.single hsingle i c₀ hc₀ (hsame ▸ hconnected)

theorem Consistent.connect (h : Consistent s) : Consistent (connect s) ∧
    (connect s).active = s.active ∧
    ∀ a, s.active = some a → (connect s).clients[a]? = s.clients[a]? := by
  have hat : ∀ {i : ℕ} {c}, (PoolStrategy.connect s).clients[i]? = some c →
      s.clients[i]? = some c ∨ (c.state = .connecting ∧ c.contexts = []) := by
    intro i c hc
    unfold PoolStrategy.connect at hc
    rw [getElem?_updateClient] at hc
    split at hc
    · obtain ⟨c₀, hc₀, rfl⟩ := Option.map_eq_some_iff.mp hc
      unfold DaemonClient.connect
      split
      · next hstate => exact Or.inr ⟨rfl, h.idle i c₀ hc₀ (by simp [hstate])⟩
      · exact Or.inl hc₀
    · exact Or.inl hc
  have hkeep : ∀ {i : ℕ} {c}, s.clients[i]? = some c → c.state = .connected →
      (PoolStrategy.connect s).clients[i]? = some c := by
    intro i c hc hconnected
    unfold PoolStrategy.connect
    rw [getElem?_updateClient, hc]
    split
    · simp [DaemonClient.connect, hconnected]
    · rfl
  refine ⟨?_, rfl, ?_⟩
  · constructor
    case idle =>
      intro i c hc hne
      rcases hat hc with hc | ⟨-, hnil⟩
      · exact h.idle i c hc hne
      · exact hnil
    case active =>
      intro a ha
      obtain ⟨c, hc, hconnected⟩ := h.active a ha
      exact ⟨c, hkeep hc hconnected, hconnected⟩
    case single =>
      intro hsingle i c hc hconnected
      rcases hat hc with hc | ⟨hconnecting, -⟩
      · exact h.single (by simpa [PoolStrategy.connect, isSingle_updateClient] using hsingle) i c hc
          hconnected
      · rw [hconnecting] at hconnected
        cases hconnected
  · intro a ha
    obtain ⟨c, hc, hconnected⟩ := h.active a ha
    rw [hkeep hc hconnected, hc]

theorem consistent_createStrategy (pools retries : ℕ) :
    Consistent (createStrategy pools retries) := by
  have hat : ∀ {i : ℕ} {c}, (createStrategy pools retries).clients[i]? = some c →
      c.state = .unconnected ∧ c.contexts = [] := by
    intro i c hc
    obtain ⟨id, -, rfl⟩ := List.mem_map.mp (List.mem_of_getElem? hc)
    exact ⟨rfl, rfl⟩
  constructor
  case idle => exact fun i c hc _ => (hat hc).2
  case active =>
    intro a ha
    cases ha
  case single =>
    intro _ i c hc hconnected
    rw [(hat hc).1] at hconnected
    cases hconnected

/-- A client that is still connecting is not the active one, and loses nothing when it fails. -/
theorem Consistent.onClose (h : Consistent s) {client : ℕ} (failures : ℕ)
    (hclient : (s.clients[client]?).map DaemonClient.State.state = some .connecting) :
    Consistent (onClose client failures s).1 ∧ (onClose client failures s).2 = false ∧
      (onClose client failures s).1.active = s.active ∧
      ∀ a, s.active = some a → (onClose client failures s).1.clients[a]? = s.clients[a]? := by
  obtain ⟨c, hc, hconnecting⟩ := Option.map_eq_some_iff.mp hclient
  have hother : s.active ≠ some client := by
    intro ha
    obtain ⟨c', hc', hconnected⟩ := h.active client ha
    obtain rfl := Option.some.inj (hc.symm.trans hc')
    rw [hconnecting] at hconnected
    cases hconnected
  unfold PoolStrategy.onClose
  split
  · next hsingle =>
      obtain rfl := single_index hsingle hc
      have hnone : s.active = none := by
        by_contra hne
        obtain ⟨a, ha⟩ := Option.ne_none_iff_exists'.mp hne
        obtain ⟨c', hc', -⟩ := h.active a ha
        exact hother (single_index hsingle hc' ▸ ha)
      have hsame : { s with active := none } = s := by rw [← hnone]
      dsimp only
      rw [hsame, hnone]
      exact ⟨h, rfl, rfl, fun _ ha => by cases ha⟩
  · dsimp only
    simp only [hother, decide_false, if_false]
    split
    · exact ⟨h, rfl, rfl, fun _ _ => rfl⟩
    split
    · have hnext : Consistent { s with index := s.index + 1 } := ⟨h.idle, h.active, h.single⟩
      obtain ⟨hconsistent, hactive, hkept⟩ := hnext.connect
      exact ⟨hconsistent, rfl, hactive, hkept⟩
    · exact ⟨h, rfl, rfl, fun _ _ => rfl⟩

theorem getElem?_keepActive {active : Option ℕ} {clients : List DaemonClient.State} {i : ℕ}
    {c : DaemonClient.State} (h : (keepActive active clients)[i]? = some c) :
    clients[i]? = some c ∨ (active ≠ some i ∧ c.state = .unconnected ∧ c.contexts = []) := by
  unfold keepActive at h
  rw [List.getElem?_mapIdx] at h
  obtain ⟨c₀, hc₀, rfl⟩ := Option.map_eq_some_iff.mp h
  split
  · next hboth => exact Or.inr ⟨hboth.2, rfl, rfl⟩
  · exact Or.inl hc₀

theorem getElem?_keepActive_self (i : ℕ) (clients : List DaemonClient.State) :
    (keepActive (some i) clients)[i]? = clients[i]? := by
  unfold keepActive
  rw [List.getElem?_mapIdx]
  simp

/-- With several pools, a consistent strategy stays so when one connected client is active. -/
theorem consistent_keepActive (hidle : ∀ (i : ℕ) c, s.clients[i]? = some c → c.state ≠ .connected →
      c.contexts = []) (hsingle : isSingle s = false) {active : Option ℕ} {a : ℕ}
    {c : DaemonClient.State} (ha : active = some a) (hc : s.clients[a]? = some c)
    (hconnected : c.state = .connected) (index : ℕ) :
    Consistent { s with
      clients := keepActive active s.clients
      index
      active } := by
  subst ha
  constructor
  case idle =>
    intro i c₀ hc₀ hne
    rcases getElem?_keepActive hc₀ with hc₀ | ⟨-, -, hnil⟩
    · exact hidle i c₀ hc₀ hne
    · exact hnil
  case active =>
    intro b hb
    obtain rfl := Option.some.inj hb
    exact ⟨c, (getElem?_keepActive_self a s.clients).trans hc, hconnected⟩
  case single =>
    intro hsingle'
    have hlength : (keepActive (some a) s.clients).length = s.clients.length := by
      simp [keepActive]
    simp only [isSingle, hlength, decide_eq_true_eq] at hsingle'
    simp [isSingle, hsingle'] at hsingle

theorem onLoginSuccess_many (hsingle : isSingle s = false) {client a : ℕ}
    (ha : (if client = 0 ∨ s.active = none then some client else s.active) = some a) :
    onLoginSuccess client s =
      if some a ≠ s.active then
        ({ s with
            clients := keepActive (some a) s.clients
            index := a
            active := some a }, true)
      else ({ s with clients := keepActive (some a) s.clients }, false) := by
  unfold onLoginSuccess
  simp only [hsingle, Bool.false_eq_true, if_false, ha, Option.getD_some]

/-- A login of a client that was not active: it takes over, or is disconnected again. `u` is the
strategy after the client has connected. -/
theorem Consistent.onLoginSuccess (h : Consistent s) {u : State} {client : ℕ}
    {c c' : DaemonClient.State} (hc : s.clients[client]? = some c) (hother : s.active ≠ some client)
    (hconnected : c'.state = .connected)
    (hu : ∀ i : ℕ, u.clients[i]? = if client = i then some c' else s.clients[i]?)
    (hactive : u.active = s.active) (hsame : isSingle u = isSingle s) :
    let r := onLoginSuccess client u
    Consistent r.1 ∧
      ((r.2 = true ∧ onJobReceived client r.1 = true ∧ r.1.active = some client ∧
          r.1.clients[client]? = some c') ∨
        (r.2 = false ∧ onJobReceived client r.1 = false ∧ r.1.active = s.active ∧
          ∀ a, s.active = some a → r.1.clients[a]? = s.clients[a]?)) := by
  have hself : u.clients[client]? = some c' := by rw [hu, if_pos rfl]
  have hidle : ∀ (i : ℕ) c₀, u.clients[i]? = some c₀ → c₀.state ≠ .connected →
      c₀.contexts = [] := by
    intro i c₀ hc₀ hne
    rw [hu] at hc₀
    split at hc₀
    · rw [← Option.some.inj hc₀] at hne
      exact absurd hconnected hne
    · exact h.idle i c₀ hc₀ hne
  intro r
  cases hsingle : isSingle s with
  | true =>
      obtain rfl := single_index hsingle hc
      rw [hsingle] at hsame
      have hr : r = ({ u with active := some 0 }, true) := by
        simp only [r, PoolStrategy.onLoginSuccess, hsame, if_true]
      rw [hr]
      refine ⟨⟨hidle, ?_, ?_⟩, Or.inl ⟨rfl, by simp [onJobReceived], rfl, hself⟩⟩
      · intro a ha
        obtain rfl := Option.some.inj ha
        exact ⟨c', hself, hconnected⟩
      · intro _ i c₀ hc₀ _
        rw [single_index hsame hc₀]
  | false =>
      rw [hsingle] at hsame
      by_cases htake : client = 0 ∨ s.active = none
      · have hr := onLoginSuccess_many hsame ((if_pos (hactive ▸ htake)) : _ = some client)
        rw [if_pos fun heq => hother (hactive ▸ heq.symm)] at hr
        change r = _ at hr
        rw [hr]
        refine ⟨consistent_keepActive hidle hsame rfl hself hconnected client,
          Or.inl ⟨rfl, ?_, rfl, ?_⟩⟩
        · simp [onJobReceived]
        · exact (getElem?_keepActive_self client _).trans hself
      · obtain ⟨a, ha⟩ := Option.ne_none_iff_exists'.mp (not_or.mp htake).2
        have hne : client ≠ a := fun heq => hother (heq ▸ ha)
        obtain ⟨ca, hca, hconnected'⟩ := h.active a ha
        have hkept : u.clients[a]? = some ca := by rw [hu, if_neg hne, hca]
        have hua : u.active = some a := hactive.trans ha
        have hr := onLoginSuccess_many hsame ((if_neg (hactive ▸ htake)).trans hua)
        rw [if_neg (not_not.mpr hua.symm), ← hua] at hr
        change r = _ at hr
        have hmany : isSingle { u with clients := keepActive u.active u.clients } = false := by
          simpa [isSingle, keepActive] using hsame
        rw [hr]
        refine ⟨consistent_keepActive hidle hsame hua hkept hconnected' u.index,
          Or.inr ⟨rfl, ?_, hactive, ?_⟩⟩
        · unfold onJobReceived
          rw [hmany, Bool.false_or, hactive]
          simpa using hother
        · intro b hb
          obtain rfl := Option.some.inj (ha.symm.trans hb)
          change (keepActive u.active u.clients)[a]? = _
          rw [hua, getElem?_keepActive_self, hkept, hca]

theorem getElem?_updateClient_of_getElem? {client : ℕ} {c : DaemonClient.State}
    (hc : s.clients[client]? = some c) (f : DaemonClient.State → DaemonClient.State) (i : ℕ) :
    (updateClient client f s).clients[i]? =
      if client = i then some (f c) else s.clients[i]? := by
  rw [getElem?_updateClient]
  split
  · next heq => rw [← heq, hc, Option.map_some]
  · rfl

/-- A job of a client that has its socket reaches the mapper if the client is the active one. -/
theorem Consistent.installContext (h : Consistent s) (now : ℕ) {client : ℕ}
    {c : DaemonClient.State} (hc : s.clients[client]? = some c) (hconnected : c.state = .connected)
    (context : DaemonClient.JobContext) :
    let u := PoolStrategy.updateClient client (DaemonClient.installContext now context) s
    Consistent u ∧ onJobReceived client u = decide (s.active = some client) := by
  intro u
  refine ⟨h.updateClient (fun c' hc' => ?_) fun c' hc' hne => ?_, ?_⟩
  · rw [Option.some.inj (hc'.symm.trans hc), hconnected]
    rfl
  · rw [Option.some.inj (hc'.symm.trans hc), hconnected] at hne
    exact absurd rfl hne
  · change (isSingle u || decide (s.active = some client)) = _
    rw [isSingle_updateClient]
    cases hsingle : isSingle s with
    | true => rw [Bool.true_or, decide_eq_true (h.single hsingle client c hc hconnected)]
    | false => rw [Bool.false_or]

/-- A new job concerns no active client, or the active one, or one that becomes active by it. -/
theorem Consistent.installTemplate (h : Consistent s) (now client : ℕ)
    (context : DaemonClient.JobContext) :
    let r := installTemplate now client context s
    Consistent r.strategy ∧
      ((r.delivered = false ∧ r.activated = false ∧ r.strategy.active = s.active ∧
          ∀ a, s.active = some a → r.strategy.clients[a]? = s.clients[a]?) ∨
        (r.delivered = true ∧ r.activated = false ∧ s.active = some client ∧
          r.strategy.active = some client ∧
          ∃ c, s.clients[client]? = some c ∧
            r.strategy.clients[client]? = some (DaemonClient.installContext now context c)) ∨
        (r.delivered = true ∧ r.activated = true ∧ s.active ≠ some client ∧
          r.strategy.active = some client ∧
          ∃ c, r.strategy.clients[client]? = some c ∧
            c.contexts = DaemonClient.trimContexts now [context])) := by
  intro r
  have hskip : r = { strategy := s } → Consistent r.strategy ∧
      (r.delivered = false ∧ r.activated = false ∧ r.strategy.active = s.active ∧
          ∀ a, s.active = some a → r.strategy.clients[a]? = s.clients[a]?) := by
    intro hr
    rw [hr]
    exact ⟨h, rfl, rfl, rfl, fun _ _ => rfl⟩
  cases hc : s.clients[client]? with
  | none =>
      have hr : r = { strategy := s } := by simp only [r, PoolStrategy.installTemplate, hc]
      exact (hskip hr).imp_right Or.inl
  | some c =>
      let u := PoolStrategy.updateClient client (DaemonClient.installContext now context) s
      have hu : ∀ i : ℕ, u.clients[i]? =
          if client = i then some (DaemonClient.installContext now context c)
            else s.clients[i]? := getElem?_updateClient_of_getElem? hc _
      cases hstate : c.state with
      | unconnected =>
          have hr : r = { strategy := s } := by
            simp only [r, PoolStrategy.installTemplate, hc, if_pos (Or.inl hstate)]
          exact (hskip hr).imp_right Or.inl
      | connecting =>
          have hempty : c.contexts = [] := h.idle client c hc (by simp [hstate])
          have hother : s.active ≠ some client := by
            intro ha
            obtain ⟨c', hc', hconnected⟩ := h.active client ha
            rw [Option.some.inj (hc'.symm.trans hc), hstate] at hconnected
            cases hconnected
          have hr : r = { strategy := (PoolStrategy.onLoginSuccess client u).1
                          activated := (PoolStrategy.onLoginSuccess client u).2
                          delivered := onJobReceived client
                            (PoolStrategy.onLoginSuccess client u).1 } := by
            simp [r, u, PoolStrategy.installTemplate, hc, hstate, hempty,
              DaemonClient.findContext]
          obtain ⟨hconsistent, hcases⟩ := h.onLoginSuccess hc hother rfl hu rfl
            (isSingle_updateClient client _ s)
          rw [hr]
          refine ⟨hconsistent, ?_⟩
          rcases hcases with ⟨hactivated, hdelivered, hactive, hclient⟩ |
            ⟨hactivated, hdelivered, hrest⟩
          · refine Or.inr (Or.inr ⟨hdelivered, hactivated, hother, hactive, _, hclient, ?_⟩)
            rw [DaemonClient.installContext, hempty]
          · exact Or.inl ⟨hdelivered, hactivated, hrest⟩
      | connected =>
          obtain ⟨hconsistent, hreceived⟩ := h.installContext now hc hstate context
          by_cases hknown : (DaemonClient.findContext context.jobId c.contexts).isSome
          · have hr : r = { strategy := s } := by
              simp only [r, PoolStrategy.installTemplate, hc, if_pos (Or.inr hknown)]
            exact (hskip hr).imp_right Or.inl
          have hr : r = { strategy := u, delivered := onJobReceived client u } := by
            simp [r, u, PoolStrategy.installTemplate, hc, hstate, hknown]
          rw [hr]
          refine ⟨hconsistent, ?_⟩
          by_cases ha : s.active = some client
          · exact Or.inr (Or.inl ⟨hreceived.trans (decide_eq_true ha), rfl, ha, ha, c, rfl,
              (hu client).trans (if_pos rfl)⟩)
          · refine Or.inl ⟨hreceived.trans (decide_eq_false ha), rfl, rfl, fun a ha' => ?_⟩
            have hne : client ≠ a := fun heq => ha (heq ▸ ha')
            exact (hu a).trans (if_neg hne)

end Consistency

end XmrigProxy.PoolStrategy
