import XmrigProxy.EventDispatch
import XmrigProxy.SimpleOwnership

/-! Whether every listener gets the event that was raised. Listeners change what they may change of
an event and raise no other, with one exception: a splitter that stops the mapper of a miner that
leaves makes the daemon clients of the mapper report their unfinished submissions. -/
namespace XmrigProxy.Events

open DaemonSubmission (SubmitResult)
open Dispatch (visit Quiet)

/-- Each listener of the event saw it once, as it was constructed, and no other event was raised. -/
structure Intact (c : Settings) (d : Dispatched) : Prop where
  each : ∀ listener ∈ listeners c d.event.kind, ∃ e,
    d.visits.filter (fun v => v.1 = listener) = [(listener, e)] ∧
      e.constructed = d.event.constructed
  others : ∀ v ∈ d.visits, v.1 ∈ listeners c d.event.kind
  alone : d.refused = []

/-- A miner leaves whose mapper is stopped at once, while a daemon client of it still waits for the
outcome of a submission. -/
def AbandonsSubmissions (s : State) : Input → Prop
  | .close miner => ∃ conn mapper, connectionOf miner s = some conn ∧
      0 ≤ conn.mapperId ∧ conn.routeId = -1 ∧ conn.mapperId.toNat ∈ s.splitter.upstreams ∧
      s.splitter.mappers.find conn.mapperId.toNat = some mapper ∧ s.splitter.reuseTimeout = 0 ∧
      ∃ strategy, (strategy = mapper.strategy ∨ mapper.pending = some strategy) ∧
        ∃ client ∈ s.clients conn.mapperId.toNat strategy, client.pendingSubmissions ≠ ∅
  | _ => False

section Listeners

variable (c : Settings) (w : Surroundings)

theorem listeners_nodup (kind : Kind) : (listeners c kind).Nodup := by
  unfold listeners
  cases kind <;> cases c.eventStream <;> decide

theorem kind_constructed (e : Event) : e.constructed.kind = e.kind := by
  cases e <;> rfl

theorem constructed_login (s : State) (e : Event) :
    (Login.login c s e).constructed = e.constructed := by
  cases e with
  | login miner loginId url rejected =>
      dsimp only [Login.login]
      split <;> rfl
  | _ => rfl

theorem constructed_donate (e : Event) (s : State) :
    (DonateSplitter.onEvent c e s).2.constructed = e.constructed := by
  cases e with
  | login miner loginId url rejected =>
      dsimp only [DonateSplitter.onEvent, DonateSplitter.login]
      split
      · rfl
      · split
        · rfl
        · split <;> rfl
  | submit event =>
      have hsubmit : (DonateSplitter.submit event s).setError .NoError =
          event.setError .NoError := by
        unfold DonateSplitter.submit
        split
        · rfl
        · split
          · rfl
          · split
            · rfl
            · split <;> rfl
      exact congrArg Event.submit hsubmit
  | _ => rfl

/-- What is said of a submission by the mapper that it went to. -/
theorem finished_submit (now : ℕ) (event : SubmitEvent) (answer : ℤ) (conn : Connection)
    (s : SimpleSplitter.State) :
    (Splitter.finished event (SimpleSplitter.submit now event answer conn s).2).setError .NoError =
      event.setError .NoError := by
  unfold SimpleSplitter.submit
  dsimp only
  split
  · rfl
  · split
    · rfl
    · unfold SimpleSplitter.atMapper
      split
      · rfl
      · next mapper hmapper =>
        unfold SimpleMapper.submit
        split
        · rfl
        · dsimp only [List.map_cons, List.map_nil, Splitter.finished]
          split <;> rfl

theorem constructed_splitter (e : Event) (s : State) :
    (Splitter.onEvent c w e s).event.constructed = e.constructed := by
  cases e with
  | close miner =>
      dsimp only [Splitter.onEvent]
      split <;> rfl
  | login miner loginId url rejected =>
      dsimp only [Splitter.onEvent]
      split
      · rfl
      · split <;> rfl
  | submit event =>
      dsimp only [Splitter.onEvent]
      split
      · rfl
      · exact congrArg Event.submit (finished_submit _ _ _ _ _)
  | _ => rfl

/-- Listeners change nothing of what an event was constructed with. -/
theorem constructed_react (listener : Listener) (e : Event) (s : State) :
    (react c w listener e s).event.constructed = e.constructed := by
  cases listener with
  | login =>
      change (if e.isRejected then e else Login.login c s e).constructed = _
      split
      · rfl
      · exact constructed_login c s e
  | donate =>
      dsimp only [react]
      split
      · rfl
      · exact constructed_donate c e s
  | splitter =>
      dsimp only [react]
      split
      · rfl
      · exact constructed_splitter c w e s
  | _ => rfl

theorem kind_react (listener : Listener) (e : Event) (s : State) :
    (react c w listener e s).event.kind = e.kind := by
  rw [← kind_constructed, constructed_react, kind_constructed]

theorem raised_of_ne {listener : Listener} (h : listener ≠ .splitter) (e : Event) (s : State) :
    (react c w listener e s).raised = [] := by
  cases listener with
  | splitter => exact absurd rfl h
  | donate =>
      dsimp only [react]
      split <;> rfl
  | _ => rfl

end Listeners

section Clients

variable {c : Settings} {w : Surroundings} {s : State} {id strategy : ℕ}

theorem reports_append (out out' : List DaemonSubmission.Output) :
    Splitter.reports (out ++ out') = Splitter.reports out ++ Splitter.reports out' :=
  List.filterMap_append

theorem reports_finalize {client : DaemonSubmission.State} {id : ℕ}
    {submission : DaemonSubmission.PendingSubmission}
    (h : client.pendingSubmissions.find id = some submission)
    (outcome : DaemonSubmission.SubmitOutcome) (message : Option String) :
    Splitter.reports (DaemonSubmission.finalizeSubmission id outcome message client).2 ≠ [] := by
  unfold DaemonSubmission.finalizeSubmission
  rw [h]
  exact List.cons_ne_nil _ _

/-- A client that is disconnected reports all its unfinished submissions. -/
theorem reports_disconnect (client : DaemonSubmission.State) :
    Splitter.reports (DaemonSubmission.disconnect client).2 = [] ↔
      client.pendingSubmissions = ∅ := by
  unfold DaemonSubmission.disconnect
  constructor
  · intro h
    by_contra hne
    obtain ⟨id, rest, hkeys⟩ : ∃ id rest, client.pendingSubmissions.keys = id :: rest := by
      cases hkeys : client.pendingSubmissions.keys with
      | nil =>
          have hentries : client.pendingSubmissions.entries = [] := List.map_eq_nil_iff.mp hkeys
          apply absurd _ hne
          cases hpending : client.pendingSubmissions with
          | mk entries sorted =>
              rw [hpending] at hentries
              subst hentries
              rfl
      | cons id rest => exact ⟨id, rest, rfl⟩
    obtain ⟨submission, hfind⟩ := (Table.mem_keys _).mp (hkeys ▸ List.mem_cons_self)
    rw [hkeys] at h
    change Splitter.reports (_ ++ _) = [] at h
    rw [reports_append] at h
    exact reports_finalize hfind _ _ (List.append_eq_nil_iff.mp h).1
  · intro hempty
    rw [hempty]
    rfl

theorem disconnect_eq_nil (chosen : ℕ → Bool) : (Splitter.disconnect id strategy chosen s).2 = [] ↔
    ∀ (i : ℕ) client, (s.clients id strategy)[i]? = some client → chosen i = true →
      client.pendingSubmissions = ∅ := by
  unfold Splitter.disconnect
  dsimp only
  rw [List.map_eq_nil_iff]
  unfold Splitter.reports
  rw [List.filterMap_flatMap, List.flatMap_eq_nil_iff]
  constructor
  · intro h i client hclient hchosen
    have hmem : DaemonSubmission.disconnect client ∈ (s.clients id strategy).mapIdx fun i client =>
        if chosen i then DaemonSubmission.disconnect client else (client, []) := by
      refine List.mem_of_getElem? (i := i) ?_
      rw [List.getElem?_mapIdx, hclient, Option.map_some, if_pos hchosen]
    exact (reports_disconnect client).mp (h _ hmem)
  · intro h outcome houtcome
    obtain ⟨i, hi⟩ := List.getElem?_of_mem houtcome
    rw [List.getElem?_mapIdx] at hi
    obtain ⟨client, hclient, rfl⟩ := Option.map_eq_some_iff.mp hi
    by_cases hchosen : chosen i = true
    · rw [if_pos hchosen]
      exact (reports_disconnect client).mpr (h i client hclient hchosen)
    · rw [if_neg hchosen]
      rfl

/-- A client that has nothing to report stays as it is. -/
theorem pending_disconnect {client : DaemonSubmission.State}
    (h : client.pendingSubmissions = ∅) : (DaemonSubmission.disconnect client).1 = client := by
  unfold DaemonSubmission.disconnect
  rw [h]
  rfl

theorem clients_setClients (clients : List DaemonSubmission.State) (id' strategy' : ℕ) :
    (Splitter.setClients id strategy clients s).clients id' strategy' =
      if id' = id ∧ strategy' = strategy then clients else s.clients id' strategy' := by
  unfold Splitter.setClients
  dsimp only
  by_cases hid : id' = id
  · subst hid
    rw [Function.update_self]
    by_cases hstrategy : strategy' = strategy
    · subst hstrategy
      rw [Function.update_self, if_pos ⟨rfl, rfl⟩]
    · rw [Function.update_of_ne hstrategy, if_neg fun h => hstrategy h.2]
  · rw [Function.update_of_ne hid, if_neg fun h => hid h.1]

theorem submit_reports (block : Option DaemonSubmission.Block) (client : DaemonSubmission.State) :
    Splitter.reports (DaemonSubmission.submit w.now block client).2.2 = [] := by
  cases block <;> rfl

theorem atClient_submit (client : ℕ) : (Splitter.atClient id strategy client
    (fun client => (DaemonSubmission.submit w.now w.block client).2) s).2 = [] := by
  unfold Splitter.atClient
  split
  · rfl
  · dsimp only
    rw [submit_reports]
    rfl

/-- A strategy that is new has nothing to report. -/
theorem connect_silent : (Splitter.connect c w id strategy s).2 = [] := by
  unfold Splitter.connect
  dsimp only
  split
  · rfl
  · next job hjob =>
    unfold Handler.seq
    dsimp only
    rw [List.append_nil, disconnect_eq_nil]
    intro i client hclient _
    rw [clients_setClients, if_pos ⟨rfl, rfl⟩] at hclient
    have hfresh := List.mem_of_getElem? hclient
    unfold Splitter.fresh at hfresh
    rw [List.eq_of_mem_replicate hfresh]

end Clients

section Outputs

variable (c : Settings) (w : Surroundings)

/-- What a splitter may do without an event being raised. -/
def IsSilent : SimpleSplitter.Output → Prop
  | .mapper _ (.stop _) => False
  | _ => True

theorem onOutput_silent {o : SimpleSplitter.Output} (h : IsSilent o) (s : State) :
    (Splitter.onOutput c w o s).2 = [] := by
  cases o with
  | mapper id output =>
      cases output with
      | connect strategy => exact connect_silent
      | stop strategy => exact False.elim h
      | submitted strategy miner request answer =>
          dsimp only [Splitter.onOutput]
          split
          · rfl
          · exact atClient_submit w.client
      | _ => rfl
  | _ => rfl

theorem forEach_silent {outs : List SimpleSplitter.Output}
    (h : ∀ o ∈ outs, IsSilent o) (s : State) :
    (Handler.forEach (Splitter.onOutput c w) outs s).2 = [] := by
  induction outs generalizing s with
  | nil => rfl
  | cons o rest ih =>
      change (Splitter.onOutput c w o s).2 ++ (Handler.forEach _ rest _).2 = []
      rw [onOutput_silent c w (h o List.mem_cons_self),
        ih fun o' ho' => h o' (List.mem_cons_of_mem _ ho')]
      rfl

theorem silent_map {outs : List SimpleMapper.Output} (id : ℕ)
    (h : ∀ o ∈ outs, ∀ strategy, o ≠ .stop strategy) :
    ∀ o ∈ outs.map (SimpleSplitter.Output.mapper id), IsSilent o := by
  intro o ho
  obtain ⟨output, houtput, rfl⟩ := List.mem_map.mp ho
  cases output with
  | stop strategy => exact absurd rfl (h _ houtput strategy)
  | _ => trivial

theorem silent_atMapper {f : Handler SimpleMapper.State SimpleMapper.Output} (id : ℕ)
    (h : ∀ m, ∀ o ∈ (f m).2, ∀ strategy, o ≠ .stop strategy) (s : SimpleSplitter.State) :
    ∀ o ∈ (SimpleSplitter.atMapper id f s).2, IsSilent o := by
  unfold SimpleSplitter.atMapper
  split
  · intro o ho
    rw [List.mem_singleton.mp ho]
    trivial
  · next mapper hmapper => exact silent_map id (h mapper)

theorem silent_login (miner : MinerId) (s : SimpleSplitter.State) :
    ∀ o ∈ (SimpleSplitter.login miner s).2, IsSilent o := by
  unfold SimpleSplitter.login
  split
  · next id hid =>
    refine silent_atMapper id (fun m o ho strategy => ?_) _
    unfold SimpleMapper.reuse at ho
    dsimp only at ho
    split at ho
    · rw [List.mem_singleton.mp ho]
      exact nofun
    · exact absurd ho List.not_mem_nil
  · refine silent_atMapper _ (fun m o ho strategy => ?_) _
    rw [List.mem_singleton.mp ho]
    exact nofun

theorem silent_submit (now : ℕ) (event : SubmitEvent) (answer : ℤ) (conn : Connection)
    (s : SimpleSplitter.State) :
    ∀ o ∈ (SimpleSplitter.submit now event answer conn s).2, IsSilent o := by
  unfold SimpleSplitter.submit
  dsimp only
  split
  · exact fun o ho => absurd ho List.not_mem_nil
  · split
    · intro o ho
      rw [List.mem_singleton.mp ho]
      trivial
    · refine silent_atMapper _ (fun m o ho strategy => ?_) _
      unfold SimpleMapper.submit at ho
      split at ho
      · rw [List.mem_singleton.mp ho]
        exact nofun
      · dsimp only at ho
        rcases List.mem_cons.mp ho with rfl | ho
        · exact nofun
        · rw [List.mem_singleton.mp ho]
          exact nofun

/-- Only the end of a connection makes a splitter raise events. -/
theorem raised_of_kind (listener : Listener) {e : Event} (h : e.kind ≠ .close) (s : State) :
    (react c w listener e s).raised = [] := by
  by_cases hsplitter : listener = .splitter
  · subst hsplitter
    dsimp only [react]
    split
    · rfl
    · cases e with
      | close miner => exact absurd rfl h
      | login miner loginId url rejected =>
          dsimp only [Splitter.onEvent]
          split
          · rfl
          · split
            · rfl
            · exact forEach_silent c w (silent_login miner _) _
      | submit event =>
          dsimp only [Splitter.onEvent]
          split
          · rfl
          · exact forEach_silent c w (silent_submit _ _ _ _ _) _
      | _ => rfl
  · exact raised_of_ne c w hsplitter e s

end Outputs

section Leaving

variable (c : Settings) (w : Surroundings)

/-- A mapper that is stopped reports the unfinished submissions of all its strategies. -/
theorem forEach_stop_eq_nil (id : ℕ) (m : SimpleMapper.State) (s : State) :
    (Handler.forEach (Splitter.onOutput c w)
        (((SimpleMapper.stop m).2).map (SimpleSplitter.Output.mapper id)) s).2 = [] ↔
      ∀ strategy, (strategy = m.strategy ∨ m.pending = some strategy) →
        ∀ client ∈ s.clients id strategy, client.pendingSubmissions = ∅ := by
  have hall : ∀ (strategy : ℕ) (s : State),
      (Splitter.disconnect id strategy (fun _ => true) s).2 = [] ↔
        ∀ client ∈ s.clients id strategy, client.pendingSubmissions = ∅ := by
    intro strategy s
    rw [disconnect_eq_nil]
    constructor
    · intro h client hclient
      obtain ⟨i, hi⟩ := List.getElem?_of_mem hclient
      exact h i client hi rfl
    · exact fun h i client hi _ => h client (List.mem_of_getElem? hi)
  cases hpending : m.pending with
  | none =>
      have hstop : (SimpleMapper.stop m).2 = [.stop m.strategy] := by
        unfold SimpleMapper.stop
        rw [hpending]
        rfl
      rw [hstop]
      change (Splitter.disconnect id m.strategy (fun _ => true) s).2 ++ [] = [] ↔ _
      rw [List.append_nil, hall]
      constructor
      · rintro h strategy (rfl | hnone)
        · exact h
        · cases hnone
      · exact fun h => h m.strategy (Or.inl rfl)
  | some next =>
      have hstop : (SimpleMapper.stop m).2 = [.stop m.strategy, .stop next] := by
        unfold SimpleMapper.stop
        rw [hpending]
        rfl
      rw [hstop]
      change (Splitter.disconnect id m.strategy (fun _ => true) s).2 ++
        ((Splitter.disconnect id next (fun _ => true)
          (Splitter.disconnect id m.strategy (fun _ => true) s).1).2 ++ []) = [] ↔ _
      rw [List.append_nil, List.append_eq_nil_iff, hall, hall]
      have hkept : (∀ client ∈ s.clients id m.strategy, client.pendingSubmissions = ∅) →
          (Splitter.disconnect id m.strategy (fun _ => true) s).1.clients id next =
            s.clients id next := by
        intro h
        unfold Splitter.disconnect
        dsimp only
        rw [clients_setClients]
        split
        · next heq =>
          rw [heq.2]
          refine List.ext_getElem? fun i => ?_
          rw [List.getElem?_map, List.getElem?_mapIdx]
          cases hi : (s.clients id m.strategy)[i]? with
          | none => rfl
          | some client =>
              exact congrArg some (pending_disconnect (h client (List.mem_of_getElem? hi)))
        · rfl
      constructor
      · rintro ⟨hfirst, hsecond⟩ strategy (rfl | hnext)
        · exact hfirst
        · obtain rfl := Option.some.inj hnext
          rwa [hkept hfirst] at hsecond
      · intro h
        refine ⟨h m.strategy (Or.inl rfl), ?_⟩
        rw [hkept (h m.strategy (Or.inl rfl))]
        exact h next (Or.inr rfl)

/-- The mapper that is stopped because its miner leaves. -/
structure Stops (conn : Connection) (s : SimpleSplitter.State) (m : SimpleMapper.State) : Prop where
  mapperId : 0 ≤ conn.mapperId
  routeId : conn.routeId = -1
  registered : conn.mapperId.toNat ∈ s.upstreams
  found : s.mappers.find conn.mapperId.toNat = some m
  reuseTimeout : s.reuseTimeout = 0

/-- What leaving does to a splitter: a mapper is stopped, or nothing is said to the strategies. -/
theorem remove_cases (conn : Connection) (s : SimpleSplitter.State) :
    (∃ m, Stops conn s m ∧ (SimpleSplitter.remove conn s).2 = .stopped conn.mapperId.toNat ::
        ((SimpleMapper.stop m).2).map (.mapper conn.mapperId.toNat)) ∨
      (∀ m, ¬ Stops conn s m) ∧ ∀ o ∈ (SimpleSplitter.remove conn s).2, IsSilent o := by
  by_cases hplaced : 0 ≤ conn.mapperId ∧ conn.routeId = -1 ∧ conn.mapperId.toNat ∈ s.upstreams
  · obtain ⟨hmapper, hroute, hup⟩ := hplaced
    have hid : conn.mapperId = conn.mapperId.toNat := (Int.toNat_of_nonneg hmapper).symm
    cases hm : s.mappers.find conn.mapperId.toNat with
    | none =>
        refine Or.inr ⟨fun m hstops => ?_, fun o ho => ?_⟩
        · have hfound := hstops.found
          rw [hm] at hfound
          cases hfound
        · have hdangling : ∀ f, SimpleSplitter.atMapper conn.mapperId.toNat f s =
              (s, [.dangling conn.mapperId.toNat]) := by
            intro f
            unfold SimpleSplitter.atMapper
            rw [hm]
          unfold SimpleSplitter.remove Handler.seq at ho
          dsimp only at ho
          rw [hdangling] at ho
          simp only [SimpleSplitter.stop, Handler.seq, SimpleSplitter.atMapper,
            SimpleSplitter.removeUpstream, SimpleSplitter.removeIdle, hm] at ho
          split at ho
          · exact absurd ho List.not_mem_nil
          · rcases List.mem_append.mp ho with ho | ho
            · rw [List.mem_singleton.mp ho]
              trivial
            · split at ho
              · simp only [List.mem_append, List.mem_singleton, List.not_mem_nil, or_false] at ho
                rcases ho with rfl | rfl
                · trivial
                · trivial
              · exact absurd ho List.not_mem_nil
    | some m =>
        have hspec := SimpleSplitter.remove_spec hid hroute hup hm
        by_cases htimeout : s.reuseTimeout = 0
        · rw [if_pos htimeout] at hspec
          refine Or.inl ⟨m, ⟨hmapper, hroute, hup, hm, htimeout⟩, ?_⟩
          rw [hspec]
          rfl
        · rw [if_neg htimeout] at hspec
          refine Or.inr ⟨fun m hstops => htimeout hstops.reuseTimeout, ?_⟩
          rw [hspec]
          exact fun o ho => absurd ho List.not_mem_nil
  · refine Or.inr ⟨fun m h => hplaced ⟨h.mapperId, h.routeId, h.registered⟩, ?_⟩
    have hnone : SimpleSplitter.remove conn s = (s, []) := by
      unfold SimpleSplitter.remove
      dsimp only
      rw [if_pos]
      simp only [Bool.or_eq_true, decide_eq_true_eq]
      by_contra hno
      push Not at hno
      exact hplaced ⟨hno.1.1, hno.1.2, hno.2⟩
    rw [hnone]
    exact fun o ho => absurd ho List.not_mem_nil

/-- What a splitter raises when a miner leaves. -/
theorem raised_close (miner : MinerId) (s : State) :
    (Splitter.onEvent c w (.close miner) s).raised = [] ↔
    ¬ AbandonsSubmissions s (.close miner) := by
  dsimp only [Splitter.onEvent]
  cases hconn : connectionOf miner s with
  | none =>
      apply iff_of_true rfl
      rintro ⟨conn, m, hfound, -⟩
      rw [hconn] at hfound
      cases hfound
  | some conn =>
      dsimp only [Splitter.run]
      rcases remove_cases conn s.splitter with ⟨m, hstops, hout⟩ | ⟨hnot, hsilent⟩
      · rw [hout]
        change [] ++ (Handler.forEach (Splitter.onOutput c w) _ _).2 = [] ↔ _
        rw [List.nil_append, forEach_stop_eq_nil]
        constructor
        · rintro h ⟨conn', m', hconn', -, -, -, hfound, -, strategy,
            hstrategy, client, hclient, hne⟩
          obtain rfl := Option.some.inj (hconn.symm.trans hconn')
          obtain rfl := Option.some.inj (hstops.found.symm.trans hfound)
          exact hne (h strategy hstrategy client hclient)
        · intro h strategy hstrategy client hclient
          by_contra hne
          exact h ⟨conn, m, hconn, hstops.mapperId, hstops.routeId, hstops.registered, hstops.found,
            hstops.reuseTimeout, strategy, hstrategy, client, hclient, hne⟩
      · apply iff_of_true (forEach_silent c w hsilent _)
        rintro ⟨conn', m, hconn', hmapper, hroute, hup, hfound, htimeout, -⟩
        obtain rfl := Option.some.inj (hconn.symm.trans hconn')
        exact hnot m ⟨hmapper, hroute, hup, hfound, htimeout⟩

end Leaving

section Exec

variable (c : Settings) (w : Surroundings) {e : Event} {s : State}

theorem intact_iff_quiet : (∀ d ∈ (exec c w e s).2, Intact c d) ↔
    Quiet (react c w) (listeners c e.kind) e s := by
  constructor
  · intro h
    exact Dispatch.refused_eq_nil.mp (h _ List.mem_cons_self).alone
  · intro h d hd
    obtain rfl := List.mem_singleton.mp hd
    obtain ⟨hsame, -⟩ := h.same (R := fun a b : Event => b.constructed = a.constructed)
      (fun _ _ _ hab hbc => Eq.trans hbc hab) (fun _ => rfl) (constructed_react c w)
    refine ⟨fun listener hlistener => ?_, fun v hv => ?_, Dispatch.refused_eq_nil.mpr h⟩
    · obtain ⟨e', he'⟩ := Dispatch.visited_once (react c w) (listeners_nodup c e.kind) hlistener e s
      refine ⟨e', he', hsame (listener, e') ?_⟩
      exact (List.mem_filter.mp (he' ▸ List.mem_cons_self)).1
    · dsimp only at hv ⊢
      rw [← Dispatch.map_fst_visits (react c w) (listeners c e.kind) e s]
      exact List.mem_map_of_mem hv

/-- Events of other kinds reach all their listeners. -/
theorem intact_of_kind (h : e.kind ≠ .close) (s : State) : ∀ d ∈ (exec c w e s).2, Intact c d := by
  refine (intact_iff_quiet c w).mpr (Dispatch.quiet_of_forall (P := fun e => e.kind ≠ .close)
    (fun k e s he => ?_) (fun k _ e s he => raised_of_kind c w k he s) h)
  rwa [kind_react]

/-- The listeners that come before the splitter leave alone what it works with. -/
theorem before_splitter (miner : MinerId) (s : State) : ∃ s',
    visit (react c w) [.miners, .donate] (.close miner) s =
      { state := s', buffer := .close miner,
        visits := [(.miners, .close miner), (.donate, .close miner)] } ∧
    s'.splitter = s.splitter ∧ s'.clients = s.clients ∧ s'.stats = s.stats ∧
    s'.workers = s.workers := by
  refine ⟨DonateSplitter.remove miner (Miners.onEvent (.close miner) s), rfl, ?_⟩
  unfold DonateSplitter.remove
  split
  · exact ⟨rfl, rfl, rfl, rfl⟩
  · split
    · exact ⟨rfl, rfl, rfl, rfl⟩
    · exact ⟨rfl, rfl, rfl, rfl⟩

/-- The listeners of the end of a connection that come after the splitter. -/
def afterSplitter (c : Settings) : List Listener :=
  [.stats, .accessLog, .workers, .debug] ++ if c.eventStream then [.eventStream] else []

theorem listeners_close : listeners c .close = [.miners, .donate] ++ .splitter :: afterSplitter c :=
  rfl

theorem quiet_after (e : Event) (s : State) : Quiet (react c w) (afterSplitter c) e s := by
  refine Dispatch.quiet_of_forall (P := fun _ => True) (fun _ _ _ _ => trivial)
    (fun k hk e s _ => raised_of_ne c w ?_ e s) trivial
  rintro rfl
  revert hk
  unfold afterSplitter
  cases c.eventStream <;> decide

theorem quiet_close {miner : MinerId} : Quiet (react c w) (listeners c .close) (.close miner) s ↔
    ¬ AbandonsSubmissions s (.close miner) := by
  obtain ⟨s', hbefore, hsplitter, hclients, -, -⟩ := before_splitter c w miner s
  rw [listeners_close, Dispatch.quiet_append, hbefore]
  have hquiet : Quiet (react c w) [.miners, .donate] (.close miner) s := ⟨rfl, rfl, trivial⟩
  rw [and_iff_right hquiet]
  change (Splitter.onEvent c w (.close miner) s').raised = [] ∧
    Quiet (react c w) (afterSplitter c) _ _ ↔ _
  rw [and_iff_left (quiet_after c w _ _), raised_close]
  unfold AbandonsSubmissions connectionOf
  rw [hsplitter, hclients]

end Exec

section Counting

variable {s s' : State}

/-- The splitter and its clients count nothing. -/
structure SameCounts (s s' : State) : Prop where
  stats : s'.stats = s.stats
  workers : s'.workers = s.workers
  connections : s'.splitter.connections = s.splitter.connections

theorem SameCounts.trans {s'' : State} (h : SameCounts s s') (h' : SameCounts s' s'') :
    SameCounts s s'' :=
  ⟨h'.stats.trans h.stats, h'.workers.trans h.workers, h'.connections.trans h.connections⟩

theorem connections_atMapper (id : ℕ) (f : Handler SimpleMapper.State SimpleMapper.Output)
    (s : SimpleSplitter.State) :
    (SimpleSplitter.atMapper id f s).1.connections = s.connections := by
  unfold SimpleSplitter.atMapper
  split <;> rfl

variable (c : Settings) (w : Surroundings)

theorem sameCounts_connect (id strategy : ℕ) (s : State) :
    SameCounts s (Splitter.connect c w id strategy s).1 := by
  unfold Splitter.connect
  dsimp only
  split
  · exact ⟨rfl, rfl, rfl⟩
  · refine ⟨rfl, rfl, ?_⟩
    unfold Handler.seq Splitter.mapperJob
    dsimp only
    rw [connections_atMapper, connections_atMapper]
    rfl

theorem sameCounts_onOutput (o : SimpleSplitter.Output) (s : State) :
    SameCounts s (Splitter.onOutput c w o s).1 := by
  cases o with
  | mapper id output =>
      cases output with
      | connect strategy => exact sameCounts_connect c w id strategy s
      | submitted strategy miner request answer =>
          dsimp only [Splitter.onOutput]
          split
          · exact ⟨rfl, rfl, rfl⟩
          · unfold Splitter.atClient
            split
            · exact ⟨rfl, rfl, rfl⟩
            · exact ⟨rfl, rfl, rfl⟩
      | _ => exact ⟨rfl, rfl, rfl⟩
  | _ => exact ⟨rfl, rfl, rfl⟩

theorem sameCounts_forEach (outs : List SimpleSplitter.Output) (s : State) :
    SameCounts s (Handler.forEach (Splitter.onOutput c w) outs s).1 := by
  induction outs generalizing s with
  | nil => exact ⟨rfl, rfl, rfl⟩
  | cons o rest ih => exact (sameCounts_onOutput c w o s).trans (ih _)

theorem connections_remove (conn : Connection) (s : SimpleSplitter.State) :
    (SimpleSplitter.remove conn s).1.connections = s.connections := by
  unfold SimpleSplitter.remove SimpleSplitter.stop Handler.seq
  dsimp only
  split
  · rfl
  · split
    · dsimp only
      rw [connections_atMapper]
      exact connections_atMapper _ _ s
    · exact connections_atMapper _ _ s

theorem sameCounts_splitter (miner : MinerId) (s : State) :
    SameCounts s (Splitter.onEvent c w (.close miner) s).state := by
  dsimp only [Splitter.onEvent]
  split
  · exact ⟨rfl, rfl, rfl⟩
  · next conn hconn =>
    obtain ⟨hstats, hworkers, hconnections⟩ := sameCounts_forEach c w
      (SimpleSplitter.remove conn s.splitter).2
      { s with splitter := (SimpleSplitter.remove conn s.splitter).1 }
    exact ⟨hstats, hworkers, hconnections.trans (connections_remove conn s.splitter)⟩

theorem event_close (miner : MinerId) (s : State) :
    (Splitter.onEvent c w (.close miner) s).event = .close miner := by
  dsimp only [Splitter.onEvent]
  split <;> rfl

/-- The end of a connection as the counters should see it. -/
structure CountsClose (c : Settings) (conn : Connection) (miner : MinerId) (s s' : State) :
    Prop where
  stats : s'.stats = XmrigProxy.Stats.step s.stats .close
  workers : s'.workers = if c.workersMode = .none then s.workers
    else Workers.remove conn miner s.workers

variable {miner : MinerId} {conn : Connection}

theorem countsClose (hconn : connectionOf miner s = some conn)
    (h : ¬ AbandonsSubmissions s (.close miner)) :
    CountsClose c conn miner s (exec c w (.close miner) s).1 := by
  obtain ⟨s₁, hbefore, hsplitter, hclients, hstats, hworkers⟩ :=
    before_splitter c w miner s
  have hkept : ¬ AbandonsSubmissions s₁ (.close miner) := by
    unfold AbandonsSubmissions connectionOf at h ⊢
    rwa [hsplitter, hclients]
  obtain ⟨hstats₂, hworkers₂, hconnections₂⟩ := sameCounts_splitter c w miner s₁
  have hevent := event_close c w miner s₁
  have hraised := (raised_close c w miner s₁).mpr hkept
  have hstate : (exec c w (.close miner) s).1 =
      Workers.onEvent c w (.close miner) (Stats.onEvent c w (.close miner)
        (Splitter.onEvent c w (.close miner) s₁).state) := by
    unfold exec
    dsimp only [Event.kind]
    rw [listeners_close, Dispatch.state_visit_append, hbefore]
    change (visit (react c w) (afterSplitter c) (Splitter.onEvent c w (.close miner) s₁).buffer
      (Splitter.onEvent c w (.close miner) s₁).state).state = _
    rw [Dispatch.Reaction.buffer_of_quiet hraised, hevent]
    unfold afterSplitter
    cases c.eventStream <;> rfl
  generalize (Splitter.onEvent c w (.close miner) s₁).state = s₂ at *
  have hfound : connectionOf miner (Stats.onEvent c w (.close miner) s₂) = some conn := by
    change s₂.splitter.connections.find miner = some conn
    rw [hconnections₂, hsplitter]
    exact hconn
  rw [hstate]
  unfold Workers.onEvent
  dsimp only
  rw [hfound]
  dsimp only
  refine ⟨?_, ?_⟩
  · rw [← hstats, ← hstats₂]
    split <;> rfl
  · rw [← hworkers, ← hworkers₂]
    split <;> rfl

end Counting

section Runs

variable (c : Settings) (w : Surroundings) {s : State}

/-- Whatever the strategies report becomes an event of another kind. -/
theorem kind_disconnect (id strategy : ℕ) (chosen : ℕ → Bool) (s : State) :
    ∀ e ∈ (Splitter.disconnect id strategy chosen s).2, e.kind = .accept := by
  intro e he
  obtain ⟨report, -, rfl⟩ := List.mem_map.mp he
  rfl

theorem kind_atClient (id strategy client : ℕ)
    (f : DaemonSubmission.State → DaemonSubmission.State × List DaemonSubmission.Output)
    (s : State) :
    ∀ e ∈ (Splitter.atClient id strategy client f s).2, e.kind = .accept := by
  unfold Splitter.atClient
  split
  · exact fun e he => absurd he List.not_mem_nil
  · intro e he
    obtain ⟨report, -, rfl⟩ := List.mem_map.mp he
    rfl

theorem kind_onOutput (o : SimpleSplitter.Output) (s : State) :
    ∀ e ∈ (Splitter.onOutput c w o s).2, e.kind = .accept := by
  by_cases hsilent : IsSilent o
  · rw [onOutput_silent c w hsilent s]
    exact fun e he => absurd he List.not_mem_nil
  · cases o with
    | mapper id output =>
        cases output with
        | stop strategy => exact kind_disconnect id strategy _ s
        | _ => exact absurd trivial hsilent
    | _ => exact absurd trivial hsilent

theorem kind_run (f : Handler SimpleSplitter.State SimpleSplitter.Output) (s : State) :
    ∀ e ∈ (Splitter.run c w f s).2, e.kind = .accept := by
  unfold Splitter.run
  dsimp only
  generalize (f s.splitter).2 = outs
  generalize ({ s with splitter := (f s.splitter).1 } : State) = s'
  induction outs generalizing s' with
  | nil => exact fun e he => absurd he List.not_mem_nil
  | cons o rest ih =>
      intro e he
      rcases List.mem_append.mp he with he | he
      · exact kind_onOutput c w o s' e he
      · exact ih _ e he

/-- What is raised outside of a dispatch reaches all its listeners. -/
theorem intact_execAll {f : Handler State Event} (h : ∀ s, ∀ e ∈ (f s).2, e.kind = .accept)
    (s : State) : ∀ d ∈ (execAll c w f s).2, Intact c d := by
  have hall : ∀ (events : List Event) (s : State), (∀ e ∈ events, e.kind = .accept) →
      ∀ d ∈ (Handler.forEach (exec c w) events s).2, Intact c d := by
    intro events
    induction events with
    | nil => exact fun s _ d hd => absurd hd List.not_mem_nil
    | cons e rest ih =>
        intro s hevents d hd
        have hkind : e.kind ≠ .close := by
          rw [hevents e List.mem_cons_self]
          decide
        rcases List.mem_append.mp hd with hd | hd
        · exact intact_of_kind c w hkind s d hd
        · exact ih _ (fun e' he' => hevents e' (List.mem_cons_of_mem _ he')) d hd
  exact hall _ _ (h s)

theorem intact_ofStrategy {f : Handler State Dispatched} (id strategy : ℕ)
    (h : ∀ s, ∀ d ∈ (f s).2, Intact c d) (s : State) :
    ∀ d ∈ (ofStrategy id strategy f s).2, Intact c d := by
  unfold ofStrategy
  split
  · exact h s
  · exact fun d hd => absurd hd List.not_mem_nil

theorem intact_ofMiner {f : Connection → Handler State Dispatched} (miner : MinerId)
    (h : ∀ conn s, ∀ d ∈ (f conn s).2, Intact c d) (s : State) :
    ∀ d ∈ (ofMiner miner f s).2, Intact c d := by
  unfold ofMiner
  split
  · exact fun d hd => absurd hd List.not_mem_nil
  · next conn hconn =>
    split
    · exact h conn s
    · exact fun d hd => absurd hd List.not_mem_nil

/-- Apart from the end of a connection no step can spoil an event. -/
theorem intact_step {input : Input} (h : ∀ miner, input ≠ .close miner) (s : State) :
    ∀ d ∈ (step c w input s).2, Intact c d := by
  have hother : ∀ {e : Event}, e.kind ≠ .close → ∀ s, ∀ d ∈ (exec c w e s).2, Intact c d :=
    fun he s => intact_of_kind c w he s
  cases input with
  | close miner => exact absurd rfl (h miner)
  | connect port => exact hother (by exact nofun) _
  | login miner identity loginId url =>
      dsimp only [step, login]
      split
      · exact fun d hd => absurd hd List.not_mem_nil
      · split
        · exact fun d hd => absurd hd List.not_mem_nil
        · exact hother (by exact nofun) _
  | submit event => exact intact_ofMiner c event.miner (fun conn => hother (by exact nofun)) s
  | acceptLocal miner result => exact intact_ofMiner c miner (fun conn => hother (by exact nofun)) s
  | donateResult id result error =>
      dsimp only [step]
      split
      · exact fun d hd => absurd hd List.not_mem_nil
      · exact hother (by exact nofun) _
  | donateClosed id => exact fun d hd => absurd hd List.not_mem_nil
  | response id strategy client rpcId data =>
      exact intact_ofStrategy c id strategy (intact_execAll c w (kind_atClient _ _ _ _)) s
  | retry id strategy client =>
      exact intact_ofStrategy c id strategy (intact_execAll c w (kind_atClient _ _ _ _)) s
  | loggedIn id strategy active =>
      exact intact_ofStrategy c id strategy (intact_execAll c w (kind_disconnect _ _ _)) s
  | active id strategy =>
      exact intact_ofStrategy c id strategy (intact_execAll c w (kind_run c w _)) s
  | pause id strategy =>
      exact intact_ofStrategy c id strategy (intact_execAll c w (kind_run c w _)) s
  | job id strategy job =>
      exact intact_ofStrategy c id strategy (intact_execAll c w (kind_run c w _)) s
  | tick => exact intact_execAll c w (kind_run c w _) s
  | configChanged reuseTimeout poolsChanged => exact intact_execAll c w (kind_run c w _) s

end Runs

section Claim

/-- All events of a step reach their listeners, and a connection that ends is counted once. -/
structure Whole (c : Settings) (s s' : State) (input : Input) (out : List Dispatched) : Prop where
  intact : ∀ d ∈ out, Intact c d
  closes : ∀ miner conn, input = .close miner → connectionOf miner s = some conn →
    out.map Dispatched.event = [.close miner] ∧ CountsClose c conn miner s s'

theorem not_abandons_of_intact {c : Settings} {w : Surroundings} {s : State} {miner : MinerId}
    (h : ∀ d ∈ (step c w (.close miner) s).2, Intact c d) :
    ¬ AbandonsSubmissions s (.close miner) := by
  intro habandons
  have hconn := habandons
  obtain ⟨conn, mapper, hconn, -⟩ := hconn
  dsimp only [step, close] at h
  rw [hconn] at h
  refine (quiet_close c w).mp ?_ habandons
  exact (intact_iff_quiet c w (e := .close miner)).mp fun d hd => h d (List.mem_append_left _ hd)

theorem whole_close {c : Settings} {w : Surroundings} {s : State} {miner : MinerId}
    (h : ¬ AbandonsSubmissions s (.close miner)) :
    Whole c s (step c w (.close miner) s).1 (.close miner) (step c w (.close miner) s).2 := by
  dsimp only [step, close]
  cases hconn : connectionOf miner s with
  | none =>
      refine ⟨fun d hd => absurd hd List.not_mem_nil, ?_⟩
      rintro miner' conn heq hfound
      cases heq
      rw [hconn] at hfound
      cases hfound
  | some conn =>
      refine ⟨fun d hd => ?_, ?_⟩
      · rcases List.mem_append.mp hd with hd | hd
        · exact (intact_iff_quiet c w (e := .close miner)).mpr ((quiet_close c w).mpr h) d hd
        · exact absurd hd List.not_mem_nil
      · rintro miner' conn' heq hfound
        cases heq
        obtain rfl := Option.some.inj (hconn.symm.trans hfound)
        obtain ⟨hstats, hworkers⟩ := countsClose c w hconn h
        exact ⟨rfl, hstats, hworkers⟩

/-- In every run every listener gets every event once and as it was raised, and the end of every
connection is counted once, except in a step in which a miner leaves submissions behind that a
stopped mapper has to report. -/
theorem events_reach_all_listeners (c : Settings) (reuseTimeout : ℕ)
    (es : ℕ → Surroundings × Input) (k : ℕ) :
    Whole c ((machine c reuseTimeout).state es k)
      ((machine c reuseTimeout).state es (k + 1)) (es k).2
        ((machine c reuseTimeout).emitted es k) ↔
      ¬ AbandonsSubmissions ((machine c reuseTimeout).state es k) (es k).2 := by
  rw [Machine.state_succ]
  unfold Machine.emitted
  change Whole c _ (step c (es k).1 (es k).2 _).1 (es k).2 (step c (es k).1 (es k).2 _).2 ↔ _
  cases hinput : (es k).2 with
  | close miner => exact ⟨fun h => not_abandons_of_intact h.intact, whole_close⟩
  | _ =>
      refine iff_of_true ⟨intact_step c _ (by exact nofun) _, ?_⟩ id
      exact fun miner conn heq => by cases heq

/-- A share of block difficulty is on its way to the daemon when its miner leaves. -/
def abandonedJob : Job :=
  { Job.initial with
    id := "a"
    blob := [0]
    diff := 1 }

def abandonedResult : SubmitResult where
  seq := 0
  diff := 1
  actualDiff := 1
  reqId := 7
  shareId := 1
  jobId := "a"
  templateGeneration := 1
  height := 1
  entropy := ""
  templateSourceId := 1
  minerDiff := 1

def abandonedMiner : MinerId := Nat.succPNat 0

def abandonedRun : ℕ → Surroundings × Input :=
  follow [({}, .connect 3333), ({ replay := some abandonedJob }, .login abandonedMiner {} 1 none),
    ({ block := some ⟨abandonedResult, "00"⟩ },
      .submit ⟨abandonedMiner, { id := 7, jobId := some "a" }, .NoError⟩),
    ({}, .close abandonedMiner)] ({}, .tick)

/-- What the proxy knows when the miner leaves. -/
theorem abandonedRun_state :
    connectionOf abandonedMiner ((machine {} 0).state abandonedRun 3) = some ⟨true, 0, -1⟩ ∧
    0 ∈ ((machine {} 0).state abandonedRun 3).splitter.upstreams ∧
    ((machine {} 0).state abandonedRun 3).splitter.reuseTimeout = 0 ∧
    (((machine {} 0).state abandonedRun 3).splitter.mappers.find 0).map
      SimpleMapper.State.strategy = some 0 ∧
    (((machine {} 0).state abandonedRun 3).clients 0 0).map
      (fun client => client.pendingSubmissions.keys) = [[1]] := by
  decide +kernel

theorem abandoned_close_uncounted : ¬ ∀ c reuseTimeout es k,
    Whole c ((machine c reuseTimeout).state es k)
      ((machine c reuseTimeout).state es (k + 1)) (es k).2
      ((machine c reuseTimeout).emitted es k) := by
  intro h
  have hclose := not_abandons_of_intact (h {} 0 abandonedRun 3).intact
  obtain ⟨hconn, hup, htimeout, hmapper, hclients⟩ := abandonedRun_state
  obtain ⟨mapper, hfound, hstrategy⟩ := Option.map_eq_some_iff.mp hmapper
  obtain ⟨client, hclient, hkeys⟩ := List.mem_map.mp (hclients ▸ List.mem_singleton_self _)
  refine hclose ⟨⟨true, 0, -1⟩, mapper, hconn, le_rfl, rfl, hup, hfound, htimeout, 0,
    Or.inl hstrategy.symm, client, hclient, fun hempty => ?_⟩
  rw [hempty] at hkeys
  cases hkeys

end Claim

end XmrigProxy.Events
