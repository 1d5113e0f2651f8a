import XmrigProxy.DispatchIntegrity
import XmrigProxy.MapperHolders

/-! The miners that the parts of the proxy refer to. Mappers and events do not own the miner that
they point to; here no reference outlives the connection, whatever order things happen in. -/
namespace XmrigProxy.Events

open Dispatch (visit Quiet state_visit_cons)
open SimpleSplitter (Held)

/-- The miner that an event is about. -/
def Event.miner? : Event → Option MinerId
  | .connection miner _ => some miner
  | .login miner _ _ _ => some miner
  | .submit event => some event.miner
  | .accept _ miner _ _ _ _ => miner
  | .close miner => some miner

theorem miner_constructed (e : Event) : e.constructed.miner? = e.miner? := by
  cases e <;> rfl

/-- An event is about a connected miner, and most are about one that has logged in. -/
def Live (connections : Table MinerId Connection) (e : Event) : Prop :=
  ∀ miner, e.miner? = some miner → ∃ conn, connections.find miner = some conn ∧
    (conn.loggedIn = true ∨ e.kind = .connection ∨ e.kind = .close)

theorem Live.constructed {connections : Table MinerId Connection} {e e' : Event}
    (h : Live connections e) (heq : e'.constructed = e.constructed) : Live connections e' := by
  intro miner hminer
  rw [← miner_constructed, heq, miner_constructed] at hminer
  rw [← kind_constructed, heq, kind_constructed]
  exact h miner hminer

/-- What refers to miners, apart from the splitter. -/
structure SameMiners (s s' : State) : Prop where
  connections : s'.splitter.connections = s.splitter.connections
  donateMappers : s'.donateMappers = s.donateMappers
  donateSequence : s'.donateSequence = s.donateSequence
  miners : s'.miners = s.miners

theorem SameMiners.refl (s : State) : SameMiners s s := ⟨rfl, rfl, rfl, rfl⟩

theorem SameMiners.trans {s s' s'' : State} (h : SameMiners s s') (h' : SameMiners s' s'') :
    SameMiners s s'' :=
  ⟨h'.connections.trans h.connections, h'.donateMappers.trans h.donateMappers,
    h'.donateSequence.trans h.donateSequence, h'.miners.trans h.miners⟩

/-- A handler that changes no connection, and whose events are about connected miners. -/
structure Keeps (s : State) (r : State × List Event) : Prop where
  held : Held r.1.splitter
  same : SameMiners s r.1
  live : ∀ e ∈ r.2, Live s.splitter.connections e

section Splitter

variable (c : Settings) (w : Surroundings) {s : State}

theorem keeps_seq {f g : Handler State Event} (hf : Keeps s (f s))
    (hg : ∀ s, Held s.splitter → Keeps s (g s)) : Keeps s (Handler.seq f g s) := by
  have hrest := hg _ hf.held
  refine ⟨hrest.held, hf.same.trans hrest.same, fun e he => ?_⟩
  rcases List.mem_append.mp he with he | he
  · exact hf.live e he
  · have hlive := hrest.live e he
    rwa [hf.same.connections] at hlive

theorem live_accepted (h : Held s.splitter) (id : ℕ)
    (report : DaemonSubmission.SubmitResult × Option String) :
    Live s.splitter.connections (Splitter.accepted id s report) := by
  intro miner hminer
  change ((s.splitter.mappers.find id).bind fun mapper => mapper.miner) = some miner at hminer
  obtain ⟨mapper, hmapper, hheld⟩ := Option.bind_eq_some_iff.mp hminer
  obtain ⟨conn, hconn, hlogged, -, -⟩ := h.holder id mapper miner hmapper hheld
  exact ⟨conn, hconn, Or.inl hlogged⟩

theorem keeps_disconnect (h : Held s.splitter) (id strategy : ℕ) (chosen : ℕ → Bool) :
    Keeps s (Splitter.disconnect id strategy chosen s) := by
  refine ⟨h, ⟨rfl, rfl, rfl, rfl⟩, fun e he => ?_⟩
  obtain ⟨report, -, rfl⟩ := List.mem_map.mp he
  exact live_accepted h id report

theorem keeps_atClient (h : Held s.splitter) (id strategy client : ℕ)
    (f : DaemonSubmission.State → DaemonSubmission.State × List DaemonSubmission.Output) :
    Keeps s (Splitter.atClient id strategy client f s) := by
  unfold Splitter.atClient
  split
  · exact ⟨h, SameMiners.refl s, fun e he => absurd he List.not_mem_nil⟩
  · refine ⟨h, ⟨rfl, rfl, rfl, rfl⟩, fun e he => ?_⟩
    obtain ⟨report, -, rfl⟩ := List.mem_map.mp he
    exact live_accepted h id report

theorem held_mapperJob (h : Held s.splitter) (now id strategy : ℕ) (job : Job) :
    Held (Splitter.mapperJob now id strategy job s).splitter :=
  (h.atMapper id (SimpleSplitter.sameHolder_onPoolEvent now (.active strategy))).atMapper id
    (SimpleSplitter.sameHolder_onPoolEvent now (.job strategy job))

theorem same_mapperJob (now id strategy : ℕ) (job : Job) (s : State) :
    SameMiners s (Splitter.mapperJob now id strategy job s) := by
  refine ⟨?_, rfl, rfl, rfl⟩
  unfold Splitter.mapperJob
  dsimp only
  rw [connections_atMapper, connections_atMapper]

theorem keeps_connect (h : Held s.splitter) (id strategy : ℕ) :
    Keeps s (Splitter.connect c w id strategy s) := by
  unfold Splitter.connect
  dsimp only
  split
  · exact ⟨h, ⟨rfl, rfl, rfl, rfl⟩, fun e he => absurd he List.not_mem_nil⟩
  · next job _ =>
    have hfresh : Keeps (Splitter.setClients id strategy (Splitter.fresh c.pools) s)
        (Splitter.disconnect id strategy (fun i => 1 ≤ i)
          (Splitter.setClients id strategy (Splitter.fresh c.pools) s)) :=
      keeps_disconnect (show Held (Splitter.setClients id strategy _ s).splitter from h)
        id strategy _
    have hboth := keeps_seq (g := fun s => (Splitter.mapperJob w.now id strategy job s, [])) hfresh
      fun s hs => ⟨held_mapperJob hs _ _ _ _, same_mapperJob _ _ _ _ s,
        fun e he => absurd he List.not_mem_nil⟩
    exact ⟨hboth.held, ⟨hboth.same.connections, hboth.same.donateMappers, hboth.same.donateSequence,
      hboth.same.miners⟩, hboth.live⟩

theorem keeps_onOutput (h : Held s.splitter) (o : SimpleSplitter.Output) :
    Keeps s (Splitter.onOutput c w o s) := by
  have hnone : Keeps s (s, []) := ⟨h, SameMiners.refl s, fun e he => absurd he List.not_mem_nil⟩
  cases o with
  | mapper id output =>
      cases output with
      | connect strategy => exact keeps_connect c w h id strategy
      | stop strategy => exact keeps_disconnect h id strategy _
      | submitted strategy miner request answer =>
          dsimp only [Splitter.onOutput]
          split
          · exact hnone
          · exact keeps_atClient h id strategy w.client _
      | _ => exact hnone
  | deleted id => exact ⟨h, ⟨rfl, rfl, rfl, rfl⟩, fun e he => absurd he List.not_mem_nil⟩
  | _ => exact hnone

theorem keeps_outputs (h : Held s.splitter) (outs : List SimpleSplitter.Output) :
    Keeps s (Handler.forEach (Splitter.onOutput c w) outs s) := by
  induction outs generalizing s with
  | nil => exact ⟨h, SameMiners.refl s, fun e he => absurd he List.not_mem_nil⟩
  | cons o rest ih => exact keeps_seq (keeps_onOutput c w h o) fun s hs => ih hs

/-- What a handler of the splitter keeps, its clients keep as well. -/
theorem keeps_run {f : Handler SimpleSplitter.State SimpleSplitter.Output}
    (h : Held (f s.splitter).1) (hconnections : (f s.splitter).1.connections =
      s.splitter.connections) :
    Keeps s (Splitter.run c w f s) := by
  have hall : Keeps { s with splitter := (f s.splitter).1 } _ :=
    keeps_outputs c w h (f s.splitter).2
  refine ⟨hall.held, ⟨hall.same.connections.trans hconnections, hall.same.donateMappers,
    hall.same.donateSequence, hall.same.miners⟩, fun e he => ?_⟩
  have hlive := hall.live e he
  rwa [hconnections] at hlive

theorem keeps_atMapper (h : Held s.splitter) (id : ℕ)
    {f : Handler SimpleMapper.State SimpleMapper.Output}
    (hf : ∀ m, SimpleSplitter.SameHolder m (f m).1) :
    Keeps s (Splitter.run c w (SimpleSplitter.atMapper id f) s) :=
  keeps_run c w (h.atMapper id hf) (connections_atMapper id f s.splitter)

end Splitter

/-- The donation mappers are those of the connected miners that have the route of the donations, and
the list of miners is that of the connections. A miner that is in transit may be missing from it. -/
structure Referenced (transit : MinerId → Prop) (s : State) : Prop where
  held : Held s.splitter
  donating : ∀ (id : ℕ) mapper, s.donateMappers.find id = some mapper → id < s.donateSequence ∧
    ∃ conn, connectionOf mapper.miner s = some conn ∧ conn.loggedIn = true ∧ conn.routeId = 0 ∧
      conn.mapperId = id
  routed : ∀ miner conn, connectionOf miner s = some conn → ¬ transit miner → conn.routeId ≠ -1 →
    ∃ mapper, s.donateMappers.find conn.mapperId.toNat = some mapper ∧ mapper.miner = miner
  attended : ∀ miner ∈ s.miners, ∃ conn, connectionOf miner s = some conn
  present : ∀ miner conn, connectionOf miner s = some conn → ¬ transit miner → miner ∈ s.miners

section Keeping

variable {transit : MinerId → Prop} {s s' : State}

theorem Referenced.same (h : Referenced transit s) (hheld : Held s'.splitter)
    (hsame : SameMiners s s') : Referenced transit s' := by
  obtain ⟨hconnections, hmappers, hsequence, hminers⟩ := hsame
  have hconn : ∀ miner, connectionOf miner s' = connectionOf miner s := by
    intro miner
    unfold connectionOf
    rw [hconnections]
  refine ⟨hheld, ?_, ?_, ?_, ?_⟩
  · intro id mapper hmapper
    rw [hmappers] at hmapper
    rw [hsequence, hconn]
    exact h.donating id mapper hmapper
  · intro miner conn hfound
    rw [hconn] at hfound
    rw [hmappers]
    exact h.routed miner conn hfound
  · intro miner hminer
    rw [hminers] at hminer
    rw [hconn]
    exact h.attended miner hminer
  · intro miner conn hfound
    rw [hconn] at hfound
    rw [hminers]
    exact h.present miner conn hfound

theorem Referenced.mono {transit' : MinerId → Prop} (h : Referenced transit s)
    (hle : ∀ miner, transit miner → transit' miner) : Referenced transit' s :=
  ⟨h.held, h.donating, fun miner conn hconn hnot => h.routed miner conn hconn fun ht =>
    hnot (hle _ ht), h.attended, fun miner conn hconn hnot => h.present miner conn hconn fun ht =>
    hnot (hle _ ht)⟩

end Keeping

section Listeners

variable (c : Settings) (w : Surroundings)

theorem workers_onEvent (e : Event) (s : State) :
    Workers.onEvent c w e s = { s with workers := (Workers.onEvent c w e s).workers } := by
  unfold Workers.onEvent
  split
  · rfl
  · cases e with
    | login miner loginId url rejected =>
        dsimp only
        split
        · split <;> rfl
        · rfl
    | close miner =>
        dsimp only
        split <;> rfl
    | submit event =>
        dsimp only
        split
        · split <;> rfl
        · rfl
    | accept mapperId miner result donate customDiff error =>
        cases miner with
        | none => rfl
        | some miner =>
            dsimp only
            split <;> rfl
    | connection miner port => rfl

theorem stats_onEvent (e : Event) (s : State) :
    Stats.onEvent c w e s = { s with stats := (Stats.onEvent c w e s).stats } := by
  unfold Stats.onEvent
  split <;> rfl

theorem customDiff_login (e : Event) (s : State) :
    CustomDiff.login c e s = { s with customDiff := (CustomDiff.login c e s).customDiff } := by
  unfold CustomDiff.login
  cases e with
  | login miner loginId url rejected =>
      dsimp only
      split
      · rfl
      · split <;> rfl
  | _ => rfl

/-- The listeners that change who is referred to. -/
def IsActor (listener : Listener) : Prop :=
  listener = .miners ∨ listener = .donate ∨ listener = .splitter

/-- The others change neither the references nor, unless it is a login, the event. -/
structure Watches (e : Event) (s : State) (r : Dispatch.Reaction State Event) : Prop where
  splitter : r.state.splitter = s.splitter
  same : SameMiners s r.state
  raised : r.raised = []

theorem watches_react {listener : Listener} (h : ¬ IsActor listener) (e : Event) (s : State) :
    Watches e s (react c w listener e s) := by
  have hraised := raised_of_ne c w (fun heq => h (Or.inr (Or.inr heq))) e s
  cases listener with
  | miners => exact absurd (Or.inl rfl) h
  | donate => exact absurd (Or.inr (Or.inl rfl)) h
  | splitter => exact absurd (Or.inr (Or.inr rfl)) h
  | stats =>
      change Watches e s { state := Stats.onEvent c w e s, event := e }
      rw [stats_onEvent]
      exact ⟨rfl, ⟨rfl, rfl, rfl, rfl⟩, rfl⟩
  | workers =>
      change Watches e s { state := Workers.onEvent c w e s, event := e }
      rw [workers_onEvent]
      exact ⟨rfl, ⟨rfl, rfl, rfl, rfl⟩, rfl⟩
  | customDiff =>
      change Watches e s { state := if e.isRejected then s else CustomDiff.login c e s, event := e }
      rw [customDiff_login]
      split <;> exact ⟨rfl, ⟨rfl, rfl, rfl, rfl⟩, rfl⟩
  | _ => exact ⟨rfl, SameMiners.refl s, hraised⟩

theorem same_visit {ks : List Listener} (h : ∀ k ∈ ks, ¬ IsActor k) (e : Event) (s : State) :
    (visit (react c w) ks e s).state.splitter = s.splitter ∧
      SameMiners s (visit (react c w) ks e s).state := by
  induction ks generalizing e s with
  | nil => exact ⟨rfl, SameMiners.refl s⟩
  | cons k ks ih =>
      have hfirst := watches_react c w (h k List.mem_cons_self) e s
      obtain ⟨hsplitter, hsame⟩ := ih (fun k' hk' => h k' (List.mem_cons_of_mem _ hk'))
        (react c w k e s).buffer (react c w k e s).state
      exact ⟨hsplitter.trans hfirst.splitter, hfirst.same.trans hsame⟩

/-- The listeners that come after the last actor. -/
def watchers (c : Settings) : Kind → List Listener
  | .connection => [.stats, .debug] ++ if c.eventStream then [.eventStream] else []
  | .close => afterSplitter c
  | .login => [.stats, .accessLog, .workers, .debug] ++ if c.eventStream then [.eventStream] else []
  | .submit => [.stats, .workers, .debug] ++ if c.eventStream then [.eventStream] else []
  | .accept => [.stats, .shareLog, .workers, .debug] ++ if c.eventStream then [.eventStream] else []

theorem not_actor {kind : Kind} : ∀ k ∈ watchers c kind, ¬ IsActor k := by
  unfold watchers afterSplitter IsActor
  cases kind <;> cases c.eventStream <;> decide

theorem Referenced.watched {transit : MinerId → Prop} {s : State} (h : Referenced transit s)
    (kind : Kind) (e : Event) :
    Referenced transit (visit (react c w) (watchers c kind) e s).state := by
  obtain ⟨hsplitter, hsame⟩ := same_visit c w (not_actor c) e s
  refine h.same ?_ hsame
  rw [hsplitter]
  exact h.held

end Listeners

section Dispatches

variable (c : Settings) (w : Surroundings) {s : State}

theorem Referenced.accept (h : Referenced (fun _ => False) s) {e : Event} (he : e.kind = .accept) :
    Referenced (fun _ => False) (exec c w e s).1 := by
  unfold exec
  rw [he]
  exact h.watched c w .accept e

theorem Referenced.connection {miner : MinerId} (port : ℕ) (h : Referenced (· = miner) s)
    {conn : Connection} (hconn : connectionOf miner s = some conn) (hroute : conn.routeId = -1) :
    Referenced (fun _ => False) (exec c w (.connection miner port) s).1 := by
  have hadded : Referenced (fun _ => False) { s with miners := insert miner s.miners } := by
    refine ⟨h.held, h.donating, ?_, ?_, ?_⟩
    · intro other conn' hconn' _ hroute'
      by_cases heq : other = miner
      · subst heq
        obtain rfl := Option.some.inj (hconn.symm.trans hconn')
        exact absurd hroute hroute'
      · exact h.routed other conn' hconn' heq hroute'
    · intro other hother
      rcases Finset.mem_insert.mp hother with rfl | hother
      · exact ⟨conn, hconn⟩
      · exact h.attended other hother
    · intro other conn' hconn' _
      by_cases heq : other = miner
      · exact Finset.mem_insert.mpr (Or.inl heq)
      · exact Finset.mem_insert_of_mem (h.present other conn' hconn' heq)
  exact hadded.watched c w .connection _

theorem Referenced.submit (h : Referenced (fun _ => False) s) (event : SubmitEvent) :
    Referenced (fun _ => False) (exec c w (.submit event) s).1 := by
  have hdonate : ∃ event', (react c w .donate (.submit event) s).buffer = .submit event' ∧
      (react c w .donate (.submit event) s).state = s := by
    dsimp only [react]
    split
    · exact ⟨event, rfl, rfl⟩
    · exact ⟨_, rfl, rfl⟩
  obtain ⟨event', hbuffer, hstate⟩ := hdonate
  have hsplitter : Referenced (fun _ => False) (react c w .splitter (.submit event') s).state := by
    dsimp only [react]
    split
    · exact h
    · dsimp only [Splitter.onEvent]
      split
      · exact h
      · next conn _ =>
        have hsame : (SimpleSplitter.submit w.now event' (Splitter.answer w s) conn
            s.splitter).1.connections = s.splitter.connections := by
          unfold SimpleSplitter.submit
          dsimp only
          split
          · rfl
          · split
            · rfl
            · exact connections_atMapper _ _ _
        have hkeeps := keeps_run c w (h.held.submit w.now event' (Splitter.answer w s) conn) hsame
        exact h.same hkeeps.held hkeeps.same
  have hlisteners : listeners c .submit = .donate :: .splitter :: watchers c .submit := rfl
  have hexec : (exec c w (.submit event) s).1 =
      (visit (react c w) (listeners c .submit) (.submit event) s).state := rfl
  rw [hexec, hlisteners, state_visit_cons, state_visit_cons, hbuffer, hstate]
  exact hsplitter.watched c w .submit _

/-- A miner that has no route gets another connection that has none. -/
theorem Referenced.reconnect {transit : MinerId → Prop} (h : Referenced transit s) {miner : MinerId}
    {conn conn' : Connection} (hconn : connectionOf miner s = some conn)
    (hroute : conn.routeId = -1)
    {splitter : SimpleSplitter.State} (hheld : Held splitter)
    (hself : splitter.connections.find miner = some conn') (hroute' : conn'.routeId = -1)
    (hother : ∀ other, other ≠ miner →
      splitter.connections.find other = s.splitter.connections.find other)
    (identity : MinerId → Identity) :
    Referenced transit { s with
      splitter
      identity } := by
  have hfind : ∀ {other : MinerId} {found}, splitter.connections.find other = some found →
      (other = miner ∧ found = conn') ∨ connectionOf other s = some found := by
    intro other found hfound
    by_cases heq : other = miner
    · subst heq
      exact Or.inl ⟨rfl, Option.some.inj (hfound.symm.trans hself)⟩
    · exact Or.inr ((hother other heq).symm.trans hfound)
  refine ⟨hheld, ?_, ?_, ?_, ?_⟩
  · intro id mapper hmapper
    obtain ⟨hid, found, hfound, hlogged, hdonate, hplace⟩ := h.donating id mapper hmapper
    have hne : mapper.miner ≠ miner := by
      intro heq
      rw [heq, hconn] at hfound
      obtain rfl := Option.some.inj hfound
      omega
    exact ⟨hid, found, (hother _ hne).trans hfound, hlogged, hdonate, hplace⟩
  · intro other found hfound hnot hfar
    rcases hfind hfound with ⟨rfl, rfl⟩ | hfound
    · exact absurd hroute' hfar
    · exact h.routed other found hfound hnot hfar
  · intro other hmember
    by_cases heq : other = miner
    · subst heq
      exact ⟨conn', hself⟩
    · obtain ⟨found, hfound⟩ := h.attended other hmember
      exact ⟨found, (hother other heq).trans hfound⟩
  · intro other found hfound hnot
    rcases hfind hfound with ⟨rfl, -⟩ | hfound
    · exact h.present other conn hconn hnot
    · exact h.present other found hfound hnot

/-- A miner that has no route is taken by the splitter of the donations. -/
theorem Referenced.divert (h : Referenced (fun _ => False) s) {miner : MinerId}
    {conn conn' : Connection} (hconn : connectionOf miner s = some conn)
    (hroute : conn.routeId = -1)
    {connections : Table MinerId Connection} (hheld : Held { s.splitter with connections })
    (hself : connections.find miner = some conn')
    (hother : ∀ other, other ≠ miner → connections.find other = s.splitter.connections.find other)
    (hlogged' : conn'.loggedIn = true) (hroute' : conn'.routeId = 0)
    (hplace' : conn'.mapperId = s.donateSequence) :
    Referenced (fun _ => False) { s with
      donateSequence := s.donateSequence + 1
      donateMappers := s.donateMappers.insert s.donateSequence { miner }
      splitter := { s.splitter with connections } } := by
  have hnew : ∀ (id : ℕ) mapper, s.donateMappers.find id = some mapper →
      id ≠ s.donateSequence ∧ mapper.miner ≠ miner := by
    intro id mapper hmapper
    obtain ⟨hid, found, hfound, -, hdonate, -⟩ := h.donating id mapper hmapper
    refine ⟨hid.ne, fun heq => ?_⟩
    rw [heq, hconn] at hfound
    obtain rfl := Option.some.inj hfound
    omega
  have hfind : ∀ {other : MinerId} {found}, connections.find other = some found →
      (other = miner ∧ found = conn') ∨ (other ≠ miner ∧ connectionOf other s = some found) := by
    intro other found hfound
    by_cases heq : other = miner
    · subst heq
      exact Or.inl ⟨rfl, Option.some.inj (hfound.symm.trans hself)⟩
    · exact Or.inr ⟨heq, (hother other heq).symm.trans hfound⟩
  refine ⟨hheld, ?_, ?_, ?_, ?_⟩
  · intro id mapper hmapper
    rw [Table.find_insert] at hmapper
    split at hmapper
    · next heq =>
      obtain rfl := Option.some.inj hmapper
      subst heq
      exact ⟨Nat.lt_succ_self _, conn', hself, hlogged', hroute', hplace'⟩
    · obtain ⟨hid, found, hfound, hrest⟩ := h.donating id mapper hmapper
      exact ⟨hid.trans (Nat.lt_succ_self _), found,
        (hother _ (hnew id mapper hmapper).2).trans hfound, hrest⟩
  · intro other found hfound _ hfar
    rcases hfind hfound with ⟨rfl, rfl⟩ | ⟨hne, hfound⟩
    · refine ⟨{ miner := other }, ?_, rfl⟩
      rw [hplace', Int.toNat_natCast]
      exact Table.find_insert_self _ _ _
    · obtain ⟨mapper, hmapper, hminer⟩ := h.routed other found hfound not_false hfar
      refine ⟨mapper, ?_, hminer⟩
      rw [Table.find_insert_of_ne _ (hnew _ mapper hmapper).1, hmapper]
  · intro other hmember
    by_cases heq : other = miner
    · subst heq
      exact ⟨conn', hself⟩
    · obtain ⟨found, hfound⟩ := h.attended other hmember
      exact ⟨found, (hother other heq).trans hfound⟩
  · intro other found hfound _
    rcases hfind hfound with ⟨rfl, -⟩ | ⟨-, hfound⟩
    · exact h.present other conn hconn not_false
    · exact h.present other found hfound not_false

/-- What the splitter of the donations makes of a login. -/
structure Donated (miner : MinerId) (s : State) : Prop where
  referenced : Referenced (fun _ => False) s
  connected : ∃ conn, connectionOf miner s = some conn ∧ conn.loggedIn = true ∧
    (conn.routeId = -1 → conn.mapperId = -1)

theorem donated_login (h : Referenced (fun _ => False) s) {miner : MinerId} {conn : Connection}
    (hconn : connectionOf miner s = some conn) (hlogged : conn.loggedIn = true)
    (hplace : conn.mapperId = -1) (hroute : conn.routeId = -1) (loginId : ℤ) (url : Option String)
    (e : Event) : Donated miner (DonateSplitter.login c miner loginId url e s).1 := by
  have hsame : Donated miner s := ⟨h, conn, hconn, hlogged, fun _ => hplace⟩
  unfold DonateSplitter.login
  split
  · exact hsame
  · split
    · exact hsame
    · split
      · exact hsame
      · obtain ⟨conn', hconn'⟩ : ∃ conn' : Connection,
            conn' = { conn with routeId := 0, mapperId := s.donateSequence } := ⟨_, rfl⟩
        obtain ⟨hlogged', hroute', hplace'⟩ : conn'.loggedIn = true ∧ conn'.routeId = 0 ∧
            conn'.mapperId = s.donateSequence := by
          subst hconn'
          exact ⟨hlogged, rfl, rfl⟩
        have hself : (s.splitter.connections.modify miner fun conn =>
            { conn with routeId := 0, mapperId := s.donateSequence }).find miner = some conn' := by
          rw [Table.find_modify, if_pos rfl, hconn']
          exact congrArg _ hconn
        have hother : ∀ other, other ≠ miner → (s.splitter.connections.modify miner fun conn =>
            { conn with routeId := 0, mapperId := s.donateSequence }).find other =
              s.splitter.connections.find other := by
          intro other hne
          rw [Table.find_modify, if_neg hne]
        have hheld := h.held.change hconn hplace hlogged' hself hother
        dsimp only
        generalize (s.splitter.connections.modify miner fun conn =>
          { conn with routeId := 0, mapperId := s.donateSequence }) = connections at *
        refine ⟨h.divert hconn hroute hheld hself hother hlogged' hroute' hplace', conn', hself,
          hlogged', fun heq => ?_⟩
        rw [hroute'] at heq
        cases heq

theorem Donated.watched {miner : MinerId} (h : Donated miner s) {e : Event}
    {r : Dispatch.Reaction State Event} (hr : Watches e s r) : Donated miner r.state := by
  have hheld : Held r.state.splitter := by
    rw [hr.splitter]
    exact h.referenced.held
  refine ⟨h.referenced.same hheld hr.same, ?_⟩
  unfold connectionOf
  rw [hr.splitter]
  exact h.connected

theorem connections_login (miner : MinerId) (s : SimpleSplitter.State) : ∃ id : ℕ,
    (SimpleSplitter.login miner s).1.connections =
      s.connections.modify miner fun c => { c with mapperId := id } := by
  unfold SimpleSplitter.login
  split
  · next id _ =>
    refine ⟨id, ?_⟩
    rw [connections_atMapper]
    rfl
  · refine ⟨s.sequence, ?_⟩
    rw [connections_atMapper]
    rfl

/-- A login that reaches the splitter. -/
theorem Donated.login {miner : MinerId} (h : Donated miner s) {conn : Connection}
    (hconn : connectionOf miner s = some conn) (hroute : conn.routeId = -1) :
    Referenced (fun _ => False) (Splitter.run c w (SimpleSplitter.login miner) s).1 := by
  obtain ⟨conn', hconn', hlogged, hfresh⟩ := h.connected
  obtain rfl := Option.some.inj (hconn'.symm.trans hconn)
  have hheld := h.referenced.held.login hconn hlogged (hfresh hroute) hroute
  obtain ⟨id, hassigned⟩ := connections_login miner s.splitter
  have hself : (SimpleSplitter.login miner s.splitter).1.connections.find miner =
      some { conn' with mapperId := id } := by
    rw [hassigned, Table.find_modify, if_pos rfl]
    exact congrArg _ hconn
  have hother : ∀ other, other ≠ miner →
      (SimpleSplitter.login miner s.splitter).1.connections.find other =
        s.splitter.connections.find other := by
    intro other hne
    rw [hassigned, Table.find_modify, if_neg hne]
  have hplaced := h.referenced.reconnect hconn hroute hheld hself hroute hother s.identity
  have hkeeps := keeps_outputs c w hplaced.held (SimpleSplitter.login miner s.splitter).2
  exact hplaced.same hkeeps.held hkeeps.same

theorem login_keeps_event (listener : Listener) (miner : MinerId)
    (loginId : ℤ) (url : Option String) (rejected : Bool) (s : State) :
    ∃ rejected', (react c w listener (.login miner loginId url rejected)
      s).buffer = .login miner loginId url rejected' := by
  have hsame := constructed_react c w listener (.login miner loginId url rejected) s
  rw [Dispatch.Reaction.buffer_of_quiet (raised_of_kind c w listener (by exact nofun) s)]
  cases hevent : (react c w listener (.login miner loginId url rejected) s).event with
  | login miner' loginId' url' rejected' =>
      rw [hevent] at hsame
      cases hsame
      exact ⟨rejected', rfl⟩
  | _ =>
      rw [hevent] at hsame
      cases hsame

theorem Referenced.login (h : Referenced (fun _ => False) s) {miner : MinerId} {conn : Connection}
    (hconn : connectionOf miner s = some conn) (hlogged : conn.loggedIn = true)
    (hplace : conn.mapperId = -1) (hroute : conn.routeId = -1) (loginId : ℤ) (url : Option String) :
    Referenced (fun _ => False) (exec c w (.login miner loginId url false) s).1 := by
  obtain ⟨r₁, hfirst⟩ := login_keeps_event c w .login miner loginId url false s
  obtain ⟨r₂, hsecond⟩ := login_keeps_event c w .donate miner loginId url r₁ s
  have hdonated : Donated miner (react c w .donate (.login miner loginId url r₁) s).state := by
    dsimp only [react]
    split
    · exact ⟨h, conn, hconn, hlogged, fun _ => hplace⟩
    · exact donated_login c h hconn hlogged hplace hroute loginId url _
  generalize hs₂ : (react c w .donate (.login miner loginId url r₁) s).state = s₂ at hdonated
  obtain ⟨r₃, hthird⟩ := login_keeps_event c w .customDiff miner loginId url r₂ s₂
  have hpassive : ¬ IsActor .customDiff := by
    unfold IsActor
    decide
  have hwatched := hdonated.watched (watches_react c w hpassive (.login miner loginId url r₂) s₂)
  generalize hs₃ : (react c w .customDiff (.login miner loginId url r₂) s₂).state = s₃ at hwatched
  have hsplitter : Referenced (fun _ => False)
      (react c w .splitter (.login miner loginId url r₃) s₃).state := by
    dsimp only [react]
    split
    · exact hwatched.referenced
    · dsimp only [Splitter.onEvent]
      split
      · exact hwatched.referenced
      · next conn' hconn' =>
        split
        · exact hwatched.referenced
        · next hnear => exact hwatched.login c w hconn' (not_not.mp hnear)
  have hlisteners : listeners c .login =
      .login :: .donate :: .customDiff :: .splitter :: watchers c .login := rfl
  have hkept : (react c w .login (.login miner loginId url false) s).state = s := rfl
  have hexec : (exec c w (.login miner loginId url false) s).1 =
      (visit (react c w) (listeners c .login) (.login miner loginId url false) s).state := rfl
  rw [hexec, hlisteners, state_visit_cons, hfirst, hkept, state_visit_cons, hsecond, hs₂,
    state_visit_cons, hthird, hs₃, state_visit_cons]
  exact hsplitter.watched c w .login _

/-- Nothing refers to the miner any more. -/
structure Forgotten (miner : MinerId) (s : State) : Prop where
  referenced : Referenced (· = miner) s
  miners : miner ∉ s.miners
  donating : ∀ id mapper, s.donateMappers.find id = some mapper → mapper.miner ≠ miner
  held : ∀ id mapper, s.splitter.mappers.find id = some mapper → mapper.miner ≠ some miner

theorem Forgotten.watched {miner : MinerId} (h : Forgotten miner s) (kind : Kind) (e : Event) :
    Forgotten miner (visit (react c w) (watchers c kind) e s).state := by
  obtain ⟨hsplitter, hsame⟩ := same_visit c w (not_actor c) e s
  refine ⟨h.referenced.watched c w kind e, ?_, ?_, ?_⟩
  · rw [hsame.miners]
    exact h.miners
  · rw [hsame.donateMappers]
    exact h.donating
  · rw [hsplitter]
    exact h.held

/-- The connection of a forgotten miner may go. -/
theorem Forgotten.erase {miner : MinerId} (h : Forgotten miner s) : Referenced (fun _ => False)
    { s with splitter.connections := s.splitter.connections.erase miner } := by
  have hfind : ∀ {other : MinerId} {found},
      (s.splitter.connections.erase miner).find other = some found →
        other ≠ miner ∧ connectionOf other s = some found := by
    intro other found hfound
    rw [Table.find_erase] at hfound
    split at hfound
    · cases hfound
    · next hne => exact ⟨hne, hfound⟩
  have hkept : ∀ {other : MinerId} {found}, other ≠ miner → connectionOf other s = some found →
      (s.splitter.connections.erase miner).find other = some found := by
    intro other found hne hfound
    rw [Table.find_erase_of_ne _ hne]
    exact hfound
  refine ⟨h.referenced.held.erase h.held, ?_, ?_, ?_, ?_⟩
  · intro id mapper hmapper
    obtain ⟨hid, found, hfound, hrest⟩ := h.referenced.donating id mapper hmapper
    exact ⟨hid, found, hkept (h.donating id mapper hmapper) hfound, hrest⟩
  · intro other found hfound _ hfar
    obtain ⟨hne, hfound⟩ := hfind hfound
    exact h.referenced.routed other found hfound hne hfar
  · intro other hmember
    obtain ⟨found, hfound⟩ := h.referenced.attended other hmember
    have hne : other ≠ miner := by
      rintro rfl
      exact h.miners hmember
    exact ⟨found, hkept hne hfound⟩
  · intro other found hfound _
    obtain ⟨hne, hfound⟩ := hfind hfound
    exact h.referenced.present other found hfound hne

/-- The mapper of a miner that leaves goes with it. -/
theorem Referenced.undonate {miner : MinerId} (h : Referenced (· = miner) s) {conn : Connection}
    (hconn : connectionOf miner s = some conn) (hown : conn.routeId ≠ -1 →
      ∃ mapper, s.donateMappers.find conn.mapperId.toNat = some mapper ∧ mapper.miner = miner) :
    Referenced (· = miner) (DonateSplitter.remove miner s) ∧
      ∀ id mapper, (DonateSplitter.remove miner s).donateMappers.find id = some mapper →
        mapper.miner ≠ miner := by
  unfold DonateSplitter.remove
  rw [hconn]
  dsimp only
  split
  · next hother =>
    refine ⟨h, fun id mapper hmapper heq => ?_⟩
    obtain ⟨-, found, hfound, -, hroute, hplace⟩ := h.donating id mapper hmapper
    rw [heq, hconn] at hfound
    obtain rfl := Option.some.inj hfound
    simp only [hroute, hplace, ne_eq, not_true_eq_false, decide_false, Bool.or_false,
      decide_eq_true_eq] at hother
    omega
  · next hdonated =>
    have hfind : ∀ {id : ℕ} {mapper}, (s.donateMappers.erase conn.mapperId.toNat).find id =
        some mapper → id ≠ conn.mapperId.toNat ∧ s.donateMappers.find id = some mapper := by
      intro id mapper hmapper
      rw [Table.find_erase] at hmapper
      split at hmapper
      · cases hmapper
      · next hne => exact ⟨hne, hmapper⟩
    refine ⟨⟨h.held, fun id mapper hmapper => h.donating id mapper (hfind hmapper).2,
      ?_, h.attended, h.present⟩, fun id mapper hmapper heq => ?_⟩
    · intro other found hfound hne hfar
      obtain ⟨mapper, hmapper, hminer⟩ := h.routed other found hfound hne hfar
      refine ⟨mapper, ?_, hminer⟩
      have hother : found.mapperId.toNat ≠ conn.mapperId.toNat := by
        intro heq
        have hroute : conn.routeId ≠ -1 := by
          intro hnear
          simp [hnear] at hdonated
        obtain ⟨mapper', hmapper', hminer'⟩ := hown hroute
        rw [heq, hmapper'] at hmapper
        obtain rfl := Option.some.inj hmapper
        exact hne (hminer.symm.trans hminer')
      change (s.donateMappers.erase conn.mapperId.toNat).find _ = _
      rw [Table.find_erase_of_ne _ hother, hmapper]
    · obtain ⟨hne, hmapper⟩ := hfind hmapper
      obtain ⟨-, found, hfound, -, -, hplace⟩ := h.donating id mapper hmapper
      rw [heq, hconn] at hfound
      obtain rfl := Option.some.inj hfound
      omega

theorem undonate_keeps (miner : MinerId) (s : State) :
    (DonateSplitter.remove miner s).splitter = s.splitter ∧
      (DonateSplitter.remove miner s).miners = s.miners := by
  unfold DonateSplitter.remove
  split
  · exact ⟨rfl, rfl⟩
  · split <;> exact ⟨rfl, rfl⟩

/-- Only a strategy that connects changes its mapper. -/
def Connects : SimpleSplitter.Output → Prop
  | .mapper _ (.connect _) => True
  | _ => False

theorem splitter_outputs {outs : List SimpleSplitter.Output}
    (h : ∀ o ∈ outs, ¬ Connects o) (s : State) :
    (Handler.forEach (Splitter.onOutput c w) outs s).1.splitter = s.splitter := by
  induction outs generalizing s with
  | nil => rfl
  | cons o rest ih =>
      have hfirst : (Splitter.onOutput c w o s).1.splitter = s.splitter := by
        have hnot := h o List.mem_cons_self
        cases o with
        | mapper id output =>
            cases output with
            | connect strategy => exact absurd trivial hnot
            | submitted strategy miner request answer =>
                dsimp only [Splitter.onOutput]
                split
                · rfl
                · unfold Splitter.atClient
                  split <;> rfl
            | _ => rfl
        | _ => rfl
      exact (ih (fun o' ho' => h o' (List.mem_cons_of_mem _ ho')) _).trans hfirst

theorem not_connects_atMapper {f : Handler SimpleMapper.State SimpleMapper.Output}
    (hf : ∀ m, ∀ o ∈ (f m).2, ∀ strategy, o ≠ .connect strategy) (id : ℕ)
    (s : SimpleSplitter.State) :
    ∀ o ∈ (SimpleSplitter.atMapper id f s).2, ¬ Connects o := by
  unfold SimpleSplitter.atMapper
  split
  · intro o ho
    rw [List.mem_singleton.mp ho]
    exact not_false
  · next m _ =>
    intro o ho
    obtain ⟨output, houtput, rfl⟩ := List.mem_map.mp ho
    cases output with
    | connect strategy => exact absurd rfl (hf m _ houtput strategy)
    | _ => exact not_false

theorem not_connects_remove (conn : Connection) (s : SimpleSplitter.State) :
    ∀ o ∈ (SimpleSplitter.remove conn s).2, ¬ Connects o := by
  have hstop : ∀ id s, ∀ o ∈ (SimpleSplitter.stop id s).2, ¬ Connects o := by
    intro id s o ho
    rcases List.mem_append.mp ho with ho | ho
    · rw [List.mem_singleton.mp ho]
      exact not_false
    · refine not_connects_atMapper (fun m o' ho' strategy heq => ?_) id _ o ho
      simp [SimpleMapper.stop, heq] at ho'
  unfold SimpleSplitter.remove
  dsimp only
  split
  · exact fun o ho => absurd ho List.not_mem_nil
  · intro o ho
    rcases List.mem_append.mp ho with ho | ho
    · exact not_connects_atMapper (fun m o' ho' => absurd ho' List.not_mem_nil) _ _ o ho
    · dsimp only at ho
      split at ho
      · rcases List.mem_append.mp ho with ho | ho
        · exact hstop _ _ o ho
        · exact absurd ho List.not_mem_nil
      · exact absurd ho List.not_mem_nil

theorem Referenced.close (h : Referenced (fun _ => False) s) {miner : MinerId} {conn : Connection}
    (hconn : connectionOf miner s = some conn) : Forgotten miner (exec c w (.close miner) s).1 := by
  have hleft : Referenced (· = miner) { s with miners := s.miners.erase miner } := by
    refine ⟨h.held, h.donating, fun other found hfound _ => h.routed other found hfound not_false,
      fun other hother => h.attended other (Finset.mem_of_mem_erase hother),
      fun other found hfound hne => Finset.mem_erase.mpr
        ⟨hne, h.present other found hfound not_false⟩⟩
  obtain ⟨hreferenced, hdonating⟩ := hleft.undonate hconn (h.routed miner conn hconn not_false)
  obtain ⟨hsplitter, hminers⟩ := undonate_keeps miner { s with miners := s.miners.erase miner }
  have hgone : miner ∉ (DonateSplitter.remove miner
      { s with miners := s.miners.erase miner }).miners := by
    rw [hminers]
    exact Finset.notMem_erase miner s.miners
  have hconn' : connectionOf miner (DonateSplitter.remove miner
      { s with miners := s.miners.erase miner }) = some conn := by
    unfold connectionOf
    rw [hsplitter]
    exact hconn
  have hlisteners : listeners c .close =
      .miners :: .donate :: .splitter :: watchers c .close := rfl
  have hexec : (exec c w (.close miner) s).1 =
      (visit (react c w) (listeners c .close) (.close miner) s).state := rfl
  have hlisted : (react c w .miners (.close miner) s).buffer = .close miner ∧
      (react c w .miners (.close miner) s).state = { s with miners := s.miners.erase miner } :=
    ⟨rfl, rfl⟩
  have hparted : ∀ s', (react c w .donate (.close miner) s').buffer = .close miner ∧
      (react c w .donate (.close miner) s').state = DonateSplitter.remove miner s' :=
    fun s' => ⟨rfl, rfl⟩
  rw [hexec, hlisteners, state_visit_cons, hlisted.1, hlisted.2, state_visit_cons, (hparted _).1,
    (hparted _).2, state_visit_cons]
  apply Forgotten.watched
  generalize DonateSplitter.remove miner { s with miners := s.miners.erase miner } = s₂ at *
  obtain ⟨hheld, hfree⟩ := hreferenced.held.remove hconn'
  have hkeeps := keeps_run c w hheld (connections_remove conn s₂.splitter)
  have hstate : (react c w .splitter (.close miner) s₂).state =
      (Splitter.run c w (SimpleSplitter.remove conn) s₂).1 := by
    change (Splitter.onEvent c w (.close miner) s₂).state = _
    dsimp only [Splitter.onEvent]
    rw [hconn']
  rw [hstate]
  refine ⟨hreferenced.same hkeeps.held hkeeps.same, ?_, ?_, ?_⟩
  · rw [hkeeps.same.miners]
    exact hgone
  · rw [hkeeps.same.donateMappers]
    exact hdonating
  · have hsplitter : (Splitter.run c w (SimpleSplitter.remove conn) s₂).1.splitter =
        (SimpleSplitter.remove conn s₂.splitter).1 :=
      splitter_outputs c w (not_connects_remove conn s₂.splitter) _
    rw [hsplitter]
    exact hfree

end Dispatches

section Runs

variable (c : Settings) (w : Surroundings) {s : State}

/-- What the strategies report is passed around one after another. -/
theorem Referenced.execAll (h : Referenced (fun _ => False) s) {f : Handler State Event}
    (hf : Keeps s (f s)) (hkind : ∀ e ∈ (f s).2, e.kind = .accept) :
    Referenced (fun _ => False) (execAll c w f s).1 := by
  have hall : ∀ (events : List Event) (s : State), Referenced (fun _ => False) s →
      (∀ e ∈ events, e.kind = .accept) →
      Referenced (fun _ => False) (Handler.forEach (exec c w) events s).1 := by
    intro events
    induction events with
    | nil => exact fun s hs _ => hs
    | cons e rest ih =>
        intro s hs hevents
        exact ih _ (hs.accept c w (hevents e List.mem_cons_self))
          fun e' he' => hevents e' (List.mem_cons_of_mem _ he')
  exact hall _ _ (h.same hf.held hf.same) hkind

theorem Referenced.ofStrategy (h : Referenced (fun _ => False) s) (id strategy : ℕ)
    {f : Handler State Dispatched} (hf : Referenced (fun _ => False) (f s).1) :
    Referenced (fun _ => False) (ofStrategy id strategy f s).1 := by
  unfold Events.ofStrategy
  split
  · exact hf
  · exact h

theorem Referenced.ofMiner (h : Referenced (fun _ => False) s) (miner : MinerId)
    {f : Connection → Handler State Dispatched}
    (hf : ∀ conn, Referenced (fun _ => False) (f conn s).1) :
    Referenced (fun _ => False) (ofMiner miner f s).1 := by
  unfold Events.ofMiner
  split
  · exact h
  · next conn _ =>
    split
    · exact hf conn
    · exact h

/-- A new connection is not in the list of the miners yet. -/
theorem Referenced.arrive (h : Referenced (fun _ => False) s) :
    Referenced (· = s.splitter.nextId.succPNat) { s with
      splitter.nextId := s.splitter.nextId + 1
      splitter.connections := s.splitter.connections.insert s.splitter.nextId.succPNat {} } := by
  have hnew : ∀ {miner : MinerId} {conn}, connectionOf miner s = some conn →
      miner ≠ s.splitter.nextId.succPNat := by
    rintro miner conn hconn rfl
    have hle := h.held.numbered _ conn hconn
    rw [Nat.succPNat_coe] at hle
    omega
  have hkept : ∀ {miner : MinerId} {conn}, connectionOf miner s = some conn →
      (s.splitter.connections.insert s.splitter.nextId.succPNat {}).find miner = some conn := by
    intro miner conn hconn
    rw [Table.find_insert_of_ne _ (hnew hconn)]
    exact hconn
  have hfind : ∀ {miner : MinerId} {conn},
      (s.splitter.connections.insert s.splitter.nextId.succPNat {}).find miner = some conn →
        miner ≠ s.splitter.nextId.succPNat → connectionOf miner s = some conn := by
    intro miner conn hconn hne
    rw [Table.find_insert_of_ne _ hne] at hconn
    exact hconn
  refine ⟨h.held.connect, ?_, ?_, ?_, ?_⟩
  · intro id mapper hmapper
    obtain ⟨hid, conn, hconn, hrest⟩ := h.donating id mapper hmapper
    exact ⟨hid, conn, hkept hconn, hrest⟩
  · intro miner conn hconn hne hfar
    exact h.routed miner conn (hfind hconn hne) not_false hfar
  · intro miner hminer
    obtain ⟨conn, hconn⟩ := h.attended miner hminer
    exact ⟨conn, hkept hconn⟩
  · intro miner conn hconn hne
    exact h.present miner conn (hfind hconn hne) not_false

/-- The pool of a donation closes; its miner is closed later. -/
theorem Referenced.deactivate (h : Referenced (fun _ => False) s) (id : ℕ) :
    Referenced (fun _ => False) { s with
      donateMappers := s.donateMappers.modify id fun mapper =>
        { mapper with active := false } } := by
  have hfind : ∀ id', ((s.donateMappers.modify id fun mapper =>
      { mapper with active := false }).find id').map DonateMapper.miner =
        (s.donateMappers.find id').map DonateMapper.miner := by
    intro id'
    rw [Table.find_modify]
    split
    · cases s.donateMappers.find id' <;> rfl
    · rfl
  refine ⟨h.held, ?_, ?_, h.attended, h.present⟩
  · intro id' mapper hmapper
    have hminer := hfind id'
    rw [hmapper, Option.map_some, eq_comm, Option.map_eq_some_iff] at hminer
    obtain ⟨mapper', hmapper', heq⟩ := hminer
    rw [← heq]
    exact h.donating id' mapper' hmapper'
  · intro miner conn hconn hnot hfar
    obtain ⟨mapper, hmapper, hminer⟩ := h.routed miner conn hconn hnot hfar
    have hthere := hfind conn.mapperId.toNat
    rw [hmapper, Option.map_some, Option.map_eq_some_iff] at hthere
    obtain ⟨mapper', hmapper', heq⟩ := hthere
    exact ⟨mapper', hmapper', heq.trans hminer⟩

theorem connections_tick (s : SimpleSplitter.State) :
    (SimpleSplitter.tick s).1.connections = s.connections := by
  unfold SimpleSplitter.tick Handler.seq
  rw [SimpleSplitter.forEach_delete]
  dsimp only
  rw [SimpleSplitter.state_forEach_stop]
  rfl

theorem connections_configChanged (reuseTimeout : ℕ) (poolsChanged : Bool)
    (s : SimpleSplitter.State) :
    (SimpleSplitter.onConfigChanged reuseTimeout poolsChanged s).1.connections = s.connections := by
  unfold SimpleSplitter.onConfigChanged
  dsimp only
  split
  · generalize s.upstreams.sort (· ≤ ·) = ids
    have hall : ∀ s' : SimpleSplitter.State, (Handler.forEach (fun id =>
        SimpleSplitter.atMapper id SimpleMapper.reload) ids s').1.connections = s'.connections := by
      induction ids with
      | nil => exact fun _ => rfl
      | cons id rest ih => exact fun s' => (ih _).trans (connections_atMapper id _ s')
    exact hall _
  · rfl

theorem Referenced.step (h : Referenced (fun _ => False) s) (input : Input) :
    Referenced (fun _ => False) (step c w input s).1 := by
  cases input with
  | connect port =>
      exact h.arrive.connection c w port (Table.find_insert_self _ _ _) rfl
  | login miner identity loginId url =>
      dsimp only [Events.step, Events.login]
      split
      · exact h
      · next conn hconn =>
        split
        · exact h
        · next hout =>
          obtain ⟨hplace, hroute⟩ := h.held.unplaced miner conn hconn (by simpa using hout)
          have hself : (s.splitter.connections.insert miner { conn with loggedIn := true }).find
            miner = some { conn with loggedIn := true } := Table.find_insert_self _ _ _
          have hother : ∀ other, other ≠ miner →
              (s.splitter.connections.insert miner { conn with loggedIn := true }).find other =
                s.splitter.connections.find other := by
            intro other hne
            exact Table.find_insert_of_ne _ hne _
          have hadmitted := h.reconnect hconn hroute
            (h.held.change hconn hplace rfl hself hother) hself
            hroute hother (Function.update s.identity miner identity)
          exact hadmitted.login c w hself rfl hplace hroute loginId url
  | submit event => exact h.ofMiner event.miner fun _ => h.submit c w event
  | acceptLocal miner result => exact h.ofMiner miner fun _ => h.accept c w rfl
  | close miner =>
      dsimp only [Events.step, Events.close]
      split
      · exact h
      · next conn hconn => exact (h.close c w hconn).erase
  | donateResult id result error =>
      dsimp only [Events.step]
      split
      · exact h
      · exact h.accept c w rfl
  | donateClosed id => exact h.deactivate id
  | response id strategy client rpcId data =>
      exact h.ofStrategy id strategy
        (h.execAll c w (keeps_atClient h.held _ _ _ _) (kind_atClient _ _ _ _ s))
  | retry id strategy client =>
      exact h.ofStrategy id strategy
        (h.execAll c w (keeps_atClient h.held _ _ _ _) (kind_atClient _ _ _ _ s))
  | loggedIn id strategy active =>
      exact h.ofStrategy id strategy
        (h.execAll c w (keeps_disconnect h.held _ _ _) (kind_disconnect _ _ _ s))
  | active id strategy =>
      exact h.ofStrategy id strategy (h.execAll c w (keeps_atMapper c w h.held id
        (SimpleSplitter.sameHolder_onPoolEvent w.now (.active strategy))) (kind_run c w _ s))
  | pause id strategy =>
      exact h.ofStrategy id strategy (h.execAll c w (keeps_atMapper c w h.held id
        (SimpleSplitter.sameHolder_onPoolEvent w.now (.pause strategy))) (kind_run c w _ s))
  | job id strategy job =>
      exact h.ofStrategy id strategy (h.execAll c w (keeps_atMapper c w h.held id
        (SimpleSplitter.sameHolder_onPoolEvent w.now (.job strategy job))) (kind_run c w _ s))
  | tick =>
      exact h.execAll c w (keeps_run c w h.held.tick (connections_tick s.splitter))
        (kind_run c w _ s)
  | configChanged reuseTimeout poolsChanged =>
      exact h.execAll c w (keeps_run c w (h.held.onConfigChanged reuseTimeout poolsChanged)
        (connections_configChanged reuseTimeout poolsChanged s.splitter)) (kind_run c w _ s)

end Runs

section Visits

variable (c : Settings) (w : Surroundings) {s : State} {connections : Table MinerId Connection}

/-- The listeners were told of miners that are connected, and but for logins and closes have logged
in. -/
def Known (s : State) (d : Dispatched) : Prop :=
  ∀ v ∈ d.visits, ∀ miner, v.2.miner? = some miner → v.2.kind = .connection ∨
    ∃ conn, connectionOf miner s = some conn ∧
      (conn.loggedIn = true ∨ v.2.kind = .login ∨ v.2.kind = .close)

theorem Known.of_live {d : Dispatched} (h : ∀ v ∈ d.visits, Live s.splitter.connections v.2) :
    Known s d := by
  intro v hv miner hminer
  obtain ⟨conn, hconn, hlogged | hkind | hkind⟩ := h v hv miner hminer
  · exact Or.inr ⟨conn, hconn, Or.inl hlogged⟩
  · exact Or.inl hkind
  · exact Or.inr ⟨conn, hconn, Or.inr (Or.inr hkind)⟩

/-- But for the end of a connection all listeners see one event. -/
theorem constructed_exec {e : Event} (hkind : e.kind ≠ .close) (s : State) :
    ∀ d ∈ (exec c w e s).2, ∀ v ∈ d.visits, v.2.constructed = e.constructed := by
  intro d hd v hv
  obtain rfl := List.mem_singleton.mp hd
  have hquiet : Quiet (react c w) (listeners c e.kind) e s :=
    Dispatch.quiet_of_forall (P := fun e => e.kind ≠ .close)
      (fun k e s he => by rwa [kind_react]) (fun k _ e s he => raised_of_kind c w k he s) hkind
  obtain ⟨hsame, -⟩ := hquiet.same (R := fun a b : Event => b.constructed = a.constructed)
    (fun _ _ _ hab hbc => Eq.trans hbc hab) (fun _ => rfl) (constructed_react c w)
  exact hsame v hv

theorem known_exec {e : Event} (hkind : e.kind ≠ .close) (h : Live s.splitter.connections e)
    (s' : State) : ∀ d ∈ (exec c w e s').2, Known s d := by
  intro d hd
  apply Known.of_live
  intro v hv
  exact h.constructed (constructed_exec c w hkind s' d hd v hv)

theorem known_execAll {f : Handler State Event} (hf : Keeps s (f s))
    (hkind : ∀ e ∈ (f s).2, e.kind = .accept) : ∀ d ∈ (execAll c w f s).2, Known s d := by
  have hall : ∀ (events : List Event) (s' : State),
      (∀ e ∈ events, e.kind = .accept ∧ Live s.splitter.connections e) →
      ∀ d ∈ (Handler.forEach (exec c w) events s').2, Known s d := by
    intro events
    induction events with
    | nil => exact fun _ _ d hd => absurd hd List.not_mem_nil
    | cons e rest ih =>
        intro s' hevents d hd
        obtain ⟨haccept, hlive⟩ := hevents e List.mem_cons_self
        have hopen : e.kind ≠ .close := by
          rw [haccept]
          decide
        rcases List.mem_append.mp hd with hd | hd
        · exact known_exec c w hopen hlive s' d hd
        · exact ih _ (fun e' he' => hevents e' (List.mem_cons_of_mem _ he')) d hd
  exact hall _ _ fun e he => ⟨hkind e he, hf.live e he⟩

/-- What goes around when a miner leaves: the end of its connection, or what its mapper reports. -/
structure Leaving (connections : Table MinerId Connection) (e : Event) (s : State) : Prop where
  live : Live connections e
  kind : e.kind = .close ∨ e.kind = .accept
  held : Held s.splitter
  connections : s.splitter.connections = connections

theorem splitter_react {e : Event} (hkind : e.kind = .close ∨ e.kind = .accept) {k : Listener}
    (hk : k ≠ .splitter) (s : State) : (react c w k e s).state.splitter = s.splitter := by
  by_cases hactor : IsActor k
  · rcases hactor with rfl | rfl | rfl
    · dsimp only [react]
      split
      · rfl
      · cases e <;> rfl
    · dsimp only [react]
      split
      · rfl
      · cases e with
        | close miner => exact (undonate_keeps miner s).1
        | login miner loginId url rejected => rcases hkind with hkind | hkind <;> cases hkind
        | _ => rfl
    · exact absurd rfl hk
  · exact (watches_react c w hactor e s).splitter

theorem leaving_splitter {miner : MinerId} (h : Leaving connections (.close miner) s) :
    Leaving connections (Splitter.onEvent c w (.close miner) s).buffer
      (Splitter.onEvent c w (.close miner) s).state := by
  dsimp only [Splitter.onEvent]
  split
  · exact h
  · next conn hconn =>
    have hkeeps := keeps_run c w (h.held.remove hconn).1 (connections_remove conn s.splitter)
    have hraised := kind_run c w (SimpleSplitter.remove conn) s
    refine ⟨?_, ?_, hkeeps.held, hkeeps.same.connections.trans h.connections⟩
    · unfold Dispatch.Reaction.buffer
      dsimp only
      cases hlast : (Splitter.run c w (SimpleSplitter.remove conn) s).2.getLast? with
      | none => exact h.live
      | some e =>
          have hlive := hkeeps.live e (List.mem_of_getLast? hlast)
          rwa [h.connections] at hlive
    · unfold Dispatch.Reaction.buffer
      dsimp only
      cases hlast : (Splitter.run c w (SimpleSplitter.remove conn) s).2.getLast? with
      | none => exact h.kind
      | some e => exact Or.inr (hraised e (List.mem_of_getLast? hlast))

theorem leaving_react {e : Event} (h : Leaving connections e s) (k : Listener) :
    Leaving connections (react c w k e s).buffer (react c w k e s).state := by
  by_cases hk : k = .splitter
  · subst hk
    dsimp only [react]
    split
    · exact h
    · cases e with
      | close miner => exact leaving_splitter c w h
      | accept mapperId miner result donate customDiff error => exact h
      | connection miner port => exact h
      | login miner loginId url rejected => rcases h.kind with hkind | hkind <;> cases hkind
      | submit event => rcases h.kind with hkind | hkind <;> cases hkind
  · have hsplitter := splitter_react c w h.kind hk s
    rw [Dispatch.Reaction.buffer_of_quiet (raised_of_ne c w hk e s)]
    refine ⟨h.live.constructed (constructed_react c w k e s), ?_, ?_, ?_⟩
    · rw [kind_react]
      exact h.kind
    · rw [hsplitter]
      exact h.held
    · rw [hsplitter]
      exact h.connections

theorem known_close (h : Held s.splitter) {miner : MinerId} {conn : Connection}
    (hconn : connectionOf miner s = some conn) :
    ∀ d ∈ (exec c w (.close miner) s).2, Known s d := by
  intro d hd
  obtain rfl := List.mem_singleton.mp hd
  have hleaving : Leaving s.splitter.connections (.close miner) s := by
    refine ⟨fun miner' hminer => ?_, Or.inl rfl, h, rfl⟩
    obtain rfl := Option.some.inj hminer
    exact ⟨conn, hconn, Or.inr (Or.inr rfl)⟩
  have hstep : ∀ k ∈ listeners c .close, ∀ e s', Leaving s.splitter.connections e s' →
      Leaving s.splitter.connections (react c w k e s').buffer (react c w k e s').state :=
    fun k _ e s' he => leaving_react c w he k
  obtain ⟨hvisits, -⟩ := Dispatch.visit_invariant hstep hleaving
  apply Known.of_live
  intro v hv
  obtain ⟨s', hseen⟩ := hvisits v hv
  exact hseen.live

theorem known_ofStrategy (id strategy : ℕ) {f : Handler State Dispatched}
    (hf : ∀ d ∈ (f s).2, Known s d) : ∀ d ∈ (ofStrategy id strategy f s).2, Known s d := by
  unfold Events.ofStrategy
  split
  · exact hf
  · exact fun d hd => absurd hd List.not_mem_nil

theorem known_ofMiner (miner : MinerId) {f : Connection → Handler State Dispatched}
    (hf : ∀ conn, connectionOf miner s = some conn → conn.loggedIn = true →
      ∀ d ∈ (f conn s).2, Known s d) : ∀ d ∈ (ofMiner miner f s).2, Known s d := by
  unfold Events.ofMiner
  split
  · exact fun d hd => absurd hd List.not_mem_nil
  · next conn hconn =>
    split
    · next hlogged => exact hf conn hconn hlogged
    · exact fun d hd => absurd hd List.not_mem_nil

theorem live_of_find {e : Event} {miner : MinerId} {conn : Connection}
    (hconn : connectionOf miner s = some conn) (hlogged : conn.loggedIn = true)
    (hminer : e.miner? = some miner) : Live s.splitter.connections e := by
  intro miner' hminer'
  obtain rfl := Option.some.inj (hminer.symm.trans hminer')
  exact ⟨conn, hconn, Or.inl hlogged⟩

theorem known_step (h : Referenced (fun _ => False) s) (input : Input) :
    ∀ d ∈ (step c w input s).2, Known s d := by
  cases input with
  | connect port =>
      intro d hd v hv miner _
      have hsame := constructed_exec c w (by exact nofun) _ d hd v hv
      apply Or.inl
      rw [← kind_constructed, hsame]
      rfl
  | login miner identity loginId url =>
      dsimp only [Events.step, Events.login]
      split
      · exact fun d hd => absurd hd List.not_mem_nil
      · next conn hconn =>
        split
        · exact fun d hd => absurd hd List.not_mem_nil
        · intro d hd v hv miner' hminer
          have hsame := constructed_exec c w (by exact nofun) _ d hd v hv
          rw [← miner_constructed, hsame] at hminer
          obtain rfl := Option.some.inj hminer
          refine Or.inr ⟨conn, hconn, Or.inr (Or.inl ?_)⟩
          rw [← kind_constructed, hsame]
          rfl
  | submit event =>
      exact known_ofMiner event.miner fun conn hconn hlogged =>
        known_exec c w (by exact nofun) (live_of_find hconn hlogged rfl) s
  | acceptLocal miner result =>
      exact known_ofMiner miner fun conn hconn hlogged =>
        known_exec c w (by exact nofun) (live_of_find hconn hlogged rfl) s
  | close miner =>
      dsimp only [Events.step, Events.close]
      split
      · exact fun d hd => absurd hd List.not_mem_nil
      · next conn hconn =>
        intro d hd
        rcases List.mem_append.mp hd with hd | hd
        · exact known_close c w h.held hconn d hd
        · exact absurd hd List.not_mem_nil
  | donateResult id result error =>
      dsimp only [Events.step]
      split
      · exact fun d hd => absurd hd List.not_mem_nil
      · next mapper hmapper =>
        obtain ⟨-, conn, hconn, hlogged, -⟩ := h.donating id mapper hmapper
        exact known_exec c w (by exact nofun) (live_of_find hconn hlogged rfl) s
  | donateClosed id => exact fun d hd => absurd hd List.not_mem_nil
  | response id strategy client rpcId data =>
      exact known_ofStrategy id strategy
        (known_execAll c w (keeps_atClient h.held _ _ _ _) (kind_atClient _ _ _ _ s))
  | retry id strategy client =>
      exact known_ofStrategy id strategy
        (known_execAll c w (keeps_atClient h.held _ _ _ _) (kind_atClient _ _ _ _ s))
  | loggedIn id strategy active =>
      exact known_ofStrategy id strategy
        (known_execAll c w (keeps_disconnect h.held _ _ _) (kind_disconnect _ _ _ s))
  | active id strategy =>
      exact known_ofStrategy id strategy (known_execAll c w (keeps_atMapper c w h.held id
        (SimpleSplitter.sameHolder_onPoolEvent w.now (.active strategy))) (kind_run c w _ s))
  | pause id strategy =>
      exact known_ofStrategy id strategy (known_execAll c w (keeps_atMapper c w h.held id
        (SimpleSplitter.sameHolder_onPoolEvent w.now (.pause strategy))) (kind_run c w _ s))
  | job id strategy job =>
      exact known_ofStrategy id strategy (known_execAll c w (keeps_atMapper c w h.held id
        (SimpleSplitter.sameHolder_onPoolEvent w.now (.job strategy job))) (kind_run c w _ s))
  | tick =>
      exact known_execAll c w (keeps_run c w h.held.tick (connections_tick s.splitter))
        (kind_run c w _ s)
  | configChanged reuseTimeout poolsChanged =>
      exact known_execAll c w (keeps_run c w (h.held.onConfigChanged reuseTimeout poolsChanged)
        (connections_configChanged reuseTimeout poolsChanged s.splitter)) (kind_run c w _ s)

end Visits

section Machine

variable (c : Settings) (reuseTimeout : ℕ) (es : ℕ → Surroundings × Input) (k : ℕ)

theorem referenced_run : Referenced (fun _ => False) ((machine c reuseTimeout).state es k) := by
  refine Machine.invariant ?_ (fun s e h => h.step c e.1 e.2) k
  refine ⟨SimpleSplitter.held_initial reuseTimeout, ?_, ?_, ?_, ?_⟩
  · intro id mapper hmapper
    cases hmapper
  · intro miner conn hconn
    cases hconn
  · intro miner hminer
    exact absurd hminer (Finset.notMem_empty miner)
  · intro miner conn hconn
    cases hconn

/-- A mapper holds a miner only while that is connected and was told so; the donation mappers are
those of the connected miners on the route of the donations, one for each; and the list of the
miners is that of the connections. -/
structure Attached (s : State) : Prop where
  holder : ∀ (id : ℕ) mapper miner, s.splitter.mappers.find id = some mapper →
    mapper.miner = some miner → ∃ conn, connectionOf miner s = some conn ∧ conn.loggedIn = true ∧
      conn.routeId = -1 ∧ conn.mapperId = id
  donating : ∀ (id : ℕ) mapper, s.donateMappers.find id = some mapper →
    ∃ conn, connectionOf mapper.miner s = some conn ∧ conn.loggedIn = true ∧ conn.routeId = 0 ∧
      conn.mapperId = id
  routed : ∀ miner conn, connectionOf miner s = some conn → conn.routeId ≠ -1 →
    ∃ mapper, s.donateMappers.find conn.mapperId.toNat = some mapper ∧ mapper.miner = miner
  listed : ∀ miner, miner ∈ s.miners ↔ ∃ conn, connectionOf miner s = some conn

/-- Whatever order things happen in, no reference to a miner is kept past its connection. -/
theorem references_outlive_nothing : Attached ((machine c reuseTimeout).state es k) := by
  have h := referenced_run c reuseTimeout es k
  generalize (machine c reuseTimeout).state es k = s at h
  refine ⟨h.held.holder, fun id mapper hmapper => (h.donating id mapper hmapper).2,
    fun miner conn hconn => h.routed miner conn hconn not_false, fun miner => ?_⟩
  constructor
  · exact h.attended miner
  · rintro ⟨conn, hconn⟩
    exact h.present miner conn hconn not_false

/-- Whatever event a listener is told of in a run, also one that was raised inside of another, the
miner that it names is connected. -/
theorem events_name_connected_miners : ∀ d ∈ (machine c reuseTimeout).emitted es k,
    Known ((machine c reuseTimeout).state es k) d :=
  known_step c (es k).1 (referenced_run c reuseTimeout es k) (es k).2

end Machine

end XmrigProxy.Events
