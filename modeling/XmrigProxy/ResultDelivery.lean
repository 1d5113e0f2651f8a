import Mathlib.Tactic.IntervalCases
import XmrigProxy.MapperRequests

/-! To whom the results of the shared mappers go, and to whom those of the simple mapper. -/
namespace XmrigProxy

namespace UpstreamMapper

/-- The miners of a storage change by joining and leaving only. -/
structure LawfulStorage {σ : Type} (ops : MinerStorage σ) : Prop where
  miner_add : ∀ miner s s' writes, ops.add miner s = some (s', writes) →
    ∀ id ≠ miner, ops.miner id s' = ops.miner id s
  miner_remove_self : ∀ miner s, ops.miner miner (ops.remove miner s) = none
  miner_remove : ∀ miner s, ∀ id ≠ miner, ops.miner id (ops.remove miner s) = ops.miner id s
  miner_reset : ∀ s id, ops.miner id (ops.reset s) = ops.miner id s
  miner_setActive : ∀ active s id, ops.miner id (ops.setActive active s) = ops.miner id s
  miner_setJob : ∀ job s id, ops.miner id (ops.setJob job s).1 = ops.miner id s

theorem lawful_nonceStorage : LawfulStorage NonceStorage.ops where
  miner_add miner s s' writes h id hne := by
    obtain ⟨index, -, heq⟩ := Option.map_eq_some_iff.mp h
    cases heq
    simp [NonceStorage.ops, NonceStorage.miner, NonceStorage.take, hne]
  miner_remove_self miner s := by
    simp [NonceStorage.ops, NonceStorage.miner, NonceStorage.remove]
  miner_remove miner s id hne := by
    simp [NonceStorage.ops, NonceStorage.miner, NonceStorage.remove, hne]
  miner_reset _ _ := rfl
  miner_setActive _ _ _ := rfl
  miner_setJob _ _ _ := rfl

theorem lawful_extraNonceStorage : LawfulStorage ExtraNonceStorage.ops where
  miner_add miner s s' writes h id hne := by
    obtain rfl := congrArg Prod.fst (Option.some.inj h)
    have hminers : (ExtraNonceStorage.add miner s).1.miners = insert miner s.miners := by
      unfold ExtraNonceStorage.add
      dsimp only
      split <;> rfl
    simp only [ExtraNonceStorage.ops, ExtraNonceStorage.miner, hminers]
    simp [hne]
  miner_remove_self miner s := by
    simp [ExtraNonceStorage.ops, ExtraNonceStorage.miner, ExtraNonceStorage.remove]
  miner_remove miner s id hne := by
    simp [ExtraNonceStorage.ops, ExtraNonceStorage.miner, ExtraNonceStorage.remove, hne]
  miner_reset _ _ := rfl
  miner_setActive _ _ _ := rfl
  miner_setJob _ _ _ := rfl

/-- What concerns no submission. -/
def Output.isQuiet : Output → Bool
  | .write _ | .connect | .stop | .donate _ => true
  | _ => false

variable {σ : Type} {kind : Kind σ} {ops : MinerStorage σ} {config : DonateStrategy.Config}

/-- What leaves the submissions of a mapper alone, and its miners. -/
structure Quiet (ops : MinerStorage σ) (s s' : State σ) (out : List Output) : Prop where
  results : s'.results = s.results
  miner : ∀ id, ops.miner id s'.storage = ops.miner id s.storage
  silent : ∀ o ∈ out, o.isQuiet = true

section Quiet

variable {s s' s'' : State σ} {out out' : List Output}

theorem quiet_refl (ops : MinerStorage σ) (s : State σ) : Quiet ops s s [] :=
  ⟨rfl, fun _ => rfl, by simp⟩

theorem Quiet.trans (h : Quiet ops s s' out) (h' : Quiet ops s' s'' out') :
    Quiet ops s s'' (out ++ out') := by
  refine ⟨h'.results.trans h.results, fun id => (h'.miner id).trans (h.miner id), ?_⟩
  intro o ho
  rcases List.mem_append.mp ho with ho | ho
  · exact h.silent o ho
  · exact h'.silent o ho

theorem Quiet.after (h : Quiet ops s s' []) (h' : Quiet ops s' s'' out) : Quiet ops s s'' out :=
  h.trans h'

theorem quiet_map {α : Type} (f : α → Output) (hf : ∀ a, (f a).isQuiet = true) (l : List α) :
    ∀ o ∈ l.map f, o.isQuiet = true := by
  intro o ho
  obtain ⟨a, -, rfl⟩ := List.mem_map.mp ho
  exact hf a

theorem quiet_connect : Quiet ops s (connect s).1 (connect s).2 :=
  ⟨rfl, fun _ => rfl, by simp [connect, Output.isQuiet]⟩

theorem quiet_setAlgo (algorithm : Algorithm) : Quiet ops s (setAlgo algorithm s) [] :=
  ⟨rfl, fun _ => rfl, by simp⟩

theorem quiet_reschedule :
    Quiet ops s (reschedule config s).2.1 (reschedule config s).2.2 := by
  unfold reschedule
  split
  · exact quiet_refl ops s
  · exact ⟨rfl, fun _ => rfl, quiet_map _ (fun _ => rfl) _⟩

theorem quiet_tickDonate : Quiet ops s (tickDonate s).1 (tickDonate s).2 := by
  unfold tickDonate
  split
  · exact quiet_refl ops s
  · exact ⟨rfl, fun _ => rfl, quiet_map _ (fun _ => rfl) _⟩

section Lawful

variable (hops : LawfulStorage ops)

include hops

theorem quiet_onActive : Quiet ops s (onActive ops s) [] :=
  ⟨rfl, hops.miner_setActive true s.storage, by simp⟩

theorem quiet_onPause : Quiet ops s (onPause ops s) [] :=
  ⟨rfl, hops.miner_setActive false s.storage, by simp⟩

theorem quiet_setJob (job : Job) : Quiet ops s (setJob ops job s).1 (setJob ops job s).2 :=
  ⟨rfl, hops.miner_setJob job s.storage, quiet_map _ (fun _ => rfl) _⟩

theorem quiet_onJob (job : Job) :
    Quiet ops s (onJob ops config job s).1 (onJob ops config job s).2 := by
  unfold onJob
  split
  · dsimp only
    split
    · exact quiet_reschedule.trans ((quiet_setAlgo _).after (quiet_setJob hops job))
    · have hsaved : Quiet ops (reschedule config s).2.1 { (reschedule config s).2.1 with
          donate := (reschedule config s).2.1.donate.map (DonateStrategy.save job) } [] :=
        ⟨rfl, fun _ => rfl, by simp⟩
      simpa using quiet_reschedule.trans hsaved
  · exact (quiet_setAlgo _).after (quiet_setJob hops job)

theorem quiet_onDonateJob (job : Job) :
    Quiet ops s (onDonateJob ops job s).1 (onDonateJob ops job s).2 := by
  unfold onDonateJob
  split
  · exact quiet_refl ops s
  · dsimp only
    split
    · exact (quiet_setAlgo _).after (quiet_setJob hops job)
    · next donate _ _ =>
      have hstarted : Quiet ops s { s with
          donate := some { donate with active := true }
          storage := ops.setActive true s.storage } [] :=
        ⟨rfl, hops.miner_setActive true s.storage, by simp⟩
      exact hstarted.after ((quiet_setAlgo _).after (quiet_setJob hops job))

theorem quiet_onDonateClose : Quiet ops s (onDonateClose ops s) [] := by
  unfold onDonateClose
  split
  · exact quiet_refl ops s
  · split
    · exact ⟨rfl, hops.miner_setActive false s.storage, by simp⟩
    · exact quiet_refl ops s

theorem quiet_resumeSaved :
    Quiet ops s (resumeSaved ops config s).1 (resumeSaved ops config s).2 := by
  unfold resumeSaved
  split
  · exact quiet_refl ops _
  · split
    · dsimp only
      split
      · exact quiet_reschedule.trans (quiet_setJob hops _)
      · exact quiet_reschedule
    · exact quiet_refl ops _

theorem quiet_tick : Quiet ops s (tick ops config s).1 (tick ops config s).2 :=
  quiet_tickDonate.trans (quiet_resumeSaved hops)

theorem quiet_suspend (paused : Bool) :
    Quiet ops s (suspend ops paused s).1 (suspend ops paused s).2 := by
  have hreset : Quiet ops s { s with
      suspended := 1
      storage := ops.reset (ops.setActive false s.storage) } [] :=
    ⟨rfl, fun id => (hops.miner_reset _ id).trans (hops.miner_setActive false s.storage id),
      by simp⟩
  have hpaused : Quiet ops s (if paused then onPause ops { s with
      suspended := 1
      storage := ops.reset (ops.setActive false s.storage) } else { s with
      suspended := 1
      storage := ops.reset (ops.setActive false s.storage) }) [] := by
    cases paused with
    | false => exact hreset
    | true => exact hreset.after (quiet_onPause hops)
  unfold suspend
  dsimp only
  generalize (if paused = true then _ else _) = t at hpaused ⊢
  split
  · exact hpaused.after ⟨rfl, fun _ => rfl, by simp [Output.isQuiet]⟩
  · refine hpaused.after ⟨rfl, fun _ => rfl, ?_⟩
    intro o ho
    rcases List.mem_cons.mp ho with rfl | ho
    · rfl
    · exact quiet_map _ (fun _ => rfl) _ o ho

/-- The pool's news, answers excepted. -/
theorem quiet_onPoolEvent {event : PoolEvent}
    (hresult : ∀ toDonate seq error, event ≠ .result toDonate seq error) :
    Quiet ops s (onPoolEvent ops config event s).1 (onPoolEvent ops config event s).2 := by
  cases event with
  | active => exact quiet_onActive hops
  | pause => exact quiet_onPause hops
  | job job => exact quiet_onJob hops job
  | donateJob job => exact quiet_onDonateJob hops job
  | donateClose => exact quiet_onDonateClose hops
  | result toDonate seq error => exact absurd rfl (hresult toDonate seq error)

end Lawful

end Quiet

/-- A kind of mapper whose storage is lawful, and whose garbage collection is no submission. -/
structure LawfulKind (kind : Kind σ) : Prop where
  storage : LawfulStorage kind.ops
  gc : ∀ paused s, Quiet kind.ops s (kind.gc paused s).1 (kind.gc paused s).2

theorem lawful_nonceKind : LawfulKind nonceKind where
  storage := lawful_nonceStorage
  gc paused s := by
    change Quiet _ s (NonceMapper.gc paused s).1 (NonceMapper.gc paused s).2
    unfold NonceMapper.gc
    split
    · exact ⟨rfl, fun _ => rfl, by simp⟩
    · split
      · exact quiet_refl _ s
      · exact quiet_suspend lawful_nonceStorage paused

theorem lawful_extraNonceKind : LawfulKind extraNonceKind where
  storage := lawful_extraNonceStorage
  gc paused s := by
    change Quiet _ s (ExtraNonceMapper.gc s).1 (ExtraNonceMapper.gc s).2
    unfold ExtraNonceMapper.gc
    split
    · exact ⟨rfl, fun _ => rfl, by simp⟩
    · exact quiet_refl _ s

section Steps

variable {mapper : State σ} {es : ℕ → Event} {i j k : ℕ}

/-- The operations of the clients in a run. -/
def operations (kind : Kind σ) (config : DonateStrategy.Config) (mapper : State σ)
    (es : ℕ → Event) : ℕ → PoolClients.Operation :=
  Served.operations (operation kind) (react kind config) mapper es

/-- What the clients report in step `k`. -/
def reports (kind : Kind σ) (config : DonateStrategy.Config) (mapper : State σ)
    (es : ℕ → Event) : ℕ → List PoolClients.Report :=
  Served.reports (operation kind) (react kind config) mapper es

/-- An accepted request is the submitted one, but for its difficulty. -/
theorem checkSubmit_id {event : SubmitEvent} {s : State σ} {checked : JobResult}
    (h : checkSubmit ops event s = .ok checked) : checked.id = event.request.id := by
  unfold checkSubmit at h
  split at h
  · cases h
  · split at h
    · cases h
    · split at h
      · cases h
      · cases h
        rfl

/-- The id that a submission gets comes from the client that it was given to. -/
theorem returned_cases {miner : MinerId} {request checked : JobResult} {client : Option ℕ}
    {written : Bool} (hevent : es k = .submit miner request client written)
    (hchecked : checkSubmit kind.ops ⟨miner, request, .NoError⟩
      ((machine kind config mapper).state es k).mapper = .ok checked) :
    (Refuses kind ((machine kind config mapper).state es k) (es k) ∧
        PoolClients.returned (reports kind config mapper es k) = -1) ∨
      (¬ Refuses kind ((machine kind config mapper).state es k) (es k) ∧
        ∃ c, PoolClients.Assigned (operations kind config mapper es) k c
          (PoolClients.returned (reports kind config mapper es k)) checked.id) := by
  cases client with
  | none =>
      left
      have hop : operations kind config mapper es k = .others 0 := by
        change operation kind ((machine kind config mapper).state es k) (es k) = _
        rw [hevent]
        rfl
      refine ⟨?_, Served.returned_others hop⟩
      rw [hevent]
      exact ⟨⟨checked, hchecked⟩, fun c hc => by cases hc⟩
  | some c =>
      have hop : operations kind config mapper es k = .submit c checked.id written := by
        change operation kind ((machine kind config mapper).state es k) (es k) = _
        rw [hevent]
        simp only [operation, hchecked]
      have hreturned := Served.returned_submit hop
      split at hreturned
      · next hsent =>
        right
        refine ⟨?_, c, hreturned⟩
        rw [hevent]
        rintro ⟨-, hrefused⟩
        exact hrefused c rfl hsent
      · next hunsent =>
        left
        refine ⟨?_, hreturned⟩
        rw [hevent]
        refine ⟨⟨checked, hchecked⟩, ?_⟩
        rintro c' hc'
        cases hc'
        exact hunsent

theorem add_some {miner : MinerId} {s s' : State σ} {out : List Output}
    (h : add ops miner s = some (s', out)) :
    s'.results = s.results ∧ (∃ writes, ops.add miner s.storage = some (s'.storage, writes)) ∧
      ∀ o ∈ out, o.isQuiet = true := by
  obtain ⟨⟨storage, writes⟩, hstored, heq⟩ := Option.map_eq_some_iff.mp h
  dsimp only [Handler.seq] at heq
  split at heq
  · cases heq
    refine ⟨rfl, ⟨writes, hstored⟩, ?_⟩
    intro o ho
    rcases List.mem_append.mp ho with ho | ho
    · exact quiet_map _ (fun _ => rfl) _ o ho
    · exact (quiet_connect : Quiet ops s _ _).silent o ho
  · cases heq
    refine ⟨rfl, ⟨writes, hstored⟩, ?_⟩
    intro o ho
    rcases List.mem_append.mp ho with ho | ho
    · exact quiet_map _ (fun _ => rfl) _ o ho
    · cases ho

/-- What a step can do about submissions. -/
inductive StepCase (kind : Kind σ) (config : DonateStrategy.Config) (mapper : State σ)
    (es : ℕ → Event) (k : ℕ) (s s' : State σ) (out : List Output) : Prop
  | rejected (miner : MinerId) (request : JobResult) (client : Option ℕ) (written : Bool)
      (error : Error) (event : es k = .submit miner request client written)
      (checked : checkSubmit kind.ops ⟨miner, request, .NoError⟩ s = .error error)
      (same : s' = s) (emitted : out = [.finished ⟨miner, request, error⟩])
  | forwarded (miner : MinerId) (request : JobResult) (client : Option ℕ) (written : Bool)
      (checked : JobResult) (event : es k = .submit miner request client written)
      (accepted : checkSubmit kind.ops ⟨miner, request, .NoError⟩ s = .ok checked)
      (recorded : s' = { s with
        results :=
          s.results.insert (PoolClients.returned (reports kind config mapper es k))
            ⟨checked.id, miner⟩ })
      (emitted : out = [.submitted (donating s) miner checked
        (PoolClients.returned (reports kind config mapper es k)),
          .finished ⟨miner, request, .NoError⟩])
  | answered (client : ℕ) (toDonate : Bool) (seq requestId : ℤ) (error : Option String)
      (event : es k = .pool client (.result toDonate seq error))
      (delivered : PoolClients.Delivered (operations kind config mapper es) k client seq requestId)
      (after : s' = (onResultAccepted kind.ops toDonate seq error s).1)
      (emitted : out = (onResultAccepted kind.ops toDonate seq error s).2)
  | inert (results : s'.results = s.results) (silent : ∀ o ∈ out, o.isQuiet = true)
      (absent : ∀ miner, es k ≠ .add miner → kind.ops.miner miner s.storage = none →
        kind.ops.miner miner s'.storage = none)
      (removed : ∀ miner, es k = .remove miner → kind.ops.miner miner s'.storage = none)

theorem StepCase.of_quiet {s s' : State σ} {out : List Output} (h : Quiet kind.ops s s' out)
    (hremove : ∀ miner, es k ≠ .remove miner) : StepCase kind config mapper es k s s' out :=
  .inert h.results h.silent (fun miner _ hm => (h.miner miner).trans hm)
    fun miner hm => absurd hm (hremove miner)

theorem step_case (hkind : LawfulKind kind) (es : ℕ → Event) (k : ℕ) :
    StepCase kind config mapper es k ((machine kind config mapper).state es k).mapper
      ((machine kind config mapper).state es (k + 1)).mapper
      ((machine kind config mapper).emitted es k) := by
  change StepCase kind config mapper es k _ ((Served.machine _ _ _).state es (k + 1)).mapper
    ((Served.machine _ _ _).emitted es k)
  rw [Served.mapper_succ, Served.emitted_eq]
  change StepCase kind config mapper es k ((machine kind config mapper).state es k).mapper
    (react kind config (reports kind config mapper es k) (es k)
      ((machine kind config mapper).state es k).mapper).1
    (react kind config (reports kind config mapper es k) (es k)
      ((machine kind config mapper).state es k).mapper).2
  generalize hs : ((machine kind config mapper).state es k).mapper = s
  cases hevent : es k with
  | start => exact .of_quiet quiet_connect fun _ => by simp [hevent]
  | add miner =>
      cases hadd : add kind.ops miner s with
      | none =>
          simp only [react, hadd, Option.getD_none]
          exact .of_quiet (quiet_refl _ s) fun _ => by simp [hevent]
      | some added =>
          obtain ⟨s', out⟩ := added
          simp only [react, hadd, Option.getD_some]
          obtain ⟨hresults, ⟨writes, hstored⟩, hsilent⟩ := add_some hadd
          refine .inert hresults hsilent (fun id hne hid => ?_) fun id hid => ?_
          · have hother : id ≠ miner := by
              rintro rfl
              exact hne hevent
            rw [hkind.storage.miner_add miner _ _ _ hstored id hother, hid]
          · rw [hevent] at hid
            cases hid
  | remove miner =>
      refine .inert rfl (by simp [react]) (fun id _ hid => ?_) fun id hid => ?_
      · by_cases hself : id = miner
        · rw [hself]
          exact hkind.storage.miner_remove_self miner s.storage
        · exact (hkind.storage.miner_remove miner s.storage id hself).trans hid
      · rw [hevent] at hid
        cases hid
        exact hkind.storage.miner_remove_self miner s.storage
  | submit miner request client written =>
      cases hchecked : checkSubmit kind.ops ⟨miner, request, .NoError⟩ s with
      | error error =>
          simp only [react, submit, hchecked]
          exact .rejected miner request client written error hevent hchecked rfl rfl
      | ok checked =>
          simp only [react, submit, hchecked]
          exact .forwarded miner request client written checked hevent hchecked rfl rfl
  | pool client event =>
      cases event with
      | result toDonate seq error =>
          have hop : operations kind config mapper es k = .answer client seq := by
            change operation kind ((machine kind config mapper).state es k) (es k) = _
            rw [hevent]
            rfl
          rcases Served.delivered_of_answer hop with hnone | ⟨requestId, hone, hdelivered⟩
          · have hnone : reports kind config mapper es k = [] := hnone
            simp only [react, hnone, if_true]
            exact .of_quiet (quiet_refl _ s) fun _ => by simp [hevent]
          · have hone : reports kind config mapper es k = [.delivered client seq requestId] := hone
            simp only [react, hone, List.cons_ne_nil, if_false]
            exact .answered client toDonate seq requestId error hevent hdelivered rfl rfl
      | active =>
          exact .of_quiet (quiet_onPoolEvent hkind.storage (by simp)) fun _ => by simp [hevent]
      | pause =>
          exact .of_quiet (quiet_onPoolEvent hkind.storage (by simp)) fun _ => by simp [hevent]
      | job job =>
          exact .of_quiet (quiet_onPoolEvent hkind.storage (by simp)) fun _ => by simp [hevent]
      | donateJob job =>
          exact .of_quiet (quiet_onPoolEvent hkind.storage (by simp)) fun _ => by simp [hevent]
      | donateClose =>
          exact .of_quiet (quiet_onPoolEvent hkind.storage (by simp)) fun _ => by simp [hevent]
  | login client => exact .of_quiet (quiet_refl _ s) fun _ => by simp [hevent]
  | close client => exact .of_quiet (quiet_refl _ s) fun _ => by simp [hevent]
  | others count => exact .of_quiet (quiet_refl _ s) fun _ => by simp [hevent]
  | tick => exact .of_quiet (quiet_tick hkind.storage) fun _ => by simp [hevent]
  | gc paused => exact .of_quiet (hkind.gc paused s) fun _ => by simp [hevent]

end Steps

theorem onResultAccepted_cases (ops : MinerStorage σ) (toDonate : Bool) (seq : ℤ)
    (error : Option String) (s : State σ) :
    (s.results.find seq = none ∧
        onResultAccepted ops toDonate seq error s = (s, [.accept s.id seq none toDonate error])) ∨
      ∃ ctx, s.results.find seq = some ctx ∧
        onResultAccepted ops toDonate seq error s = ({ s with results := s.results.erase seq },
          .accept s.id seq (ops.miner ctx.minerId s.storage) toDonate error ::
            (ops.miner ctx.minerId s.storage).toList.map fun miner =>
              .reply miner ctx.id error) := by
  unfold onResultAccepted submitCtx
  cases hfind : s.results.find seq with
  | none => exact Or.inl ⟨rfl, rfl⟩
  | some ctx =>
      right
      refine ⟨ctx, rfl, ?_⟩
      dsimp only
      cases ops.miner ctx.minerId s.storage <;> rfl

theorem onResultAccepted_frame (ops : MinerStorage σ) (toDonate : Bool) (seq : ℤ)
    (error : Option String) (s : State σ) :
    (onResultAccepted ops toDonate seq error s).1.storage = s.storage ∧
      ∀ seq' ctx, (onResultAccepted ops toDonate seq error s).1.results.find seq' = some ctx →
        s.results.find seq' = some ctx := by
  rcases onResultAccepted_cases ops toDonate seq error s with ⟨-, heq⟩ | ⟨_, -, heq⟩
  · rw [heq]
    exact ⟨rfl, fun _ _ h => h⟩
  · rw [heq]
    refine ⟨rfl, fun seq' ctx h => ?_⟩
    rw [Table.find_erase] at h
    split at h
    · cases h
    · exact h

theorem view_of_quiet {o : Output} (h : o.isQuiet = true) : view.submitted o = none ∧
    view.finished o = none ∧ view.accept o = none ∧ view.reply o = none := by
  cases o with
  | write | connect | stop | donate => exact ⟨rfl, rfl, rfl, rfl⟩
  | submitted | finished | accept | reply => cases h

section Runs

variable {mapper : State σ} {es : ℕ → Event} {i j k : ℕ} {miner : MinerId} {requestId seq : ℤ}

theorem submits_of_mem {toDonate : Bool} {checked : JobResult}
    (h : .submitted toDonate miner checked seq ∈ (machine kind config mapper).emitted es j) :
    view.Submits (machine kind config mapper) es j miner checked.id seq :=
  ⟨_, h, rfl⟩

/-- A request goes upstream when the checks let it through. -/
theorem submits_cases (hkind : LawfulKind kind)
    (h : view.Submits (machine kind config mapper) es j miner requestId seq) :
    ∃ request client written checked, es j = .submit miner request client written ∧
      checkSubmit kind.ops ⟨miner, request, .NoError⟩
        ((machine kind config mapper).state es j).mapper = .ok checked ∧
      requestId = checked.id ∧ seq = PoolClients.returned (reports kind config mapper es j) := by
  obtain ⟨o, ho, hview⟩ := h
  cases (step_case hkind es j : StepCase kind config mapper es j _ _ _) with
  | rejected _ _ _ _ _ _ _ _ emitted =>
      rw [emitted] at ho
      cases List.mem_singleton.mp ho
      cases hview
  | forwarded miner' request client written checked event accepted _ emitted =>
      rw [emitted] at ho
      rcases List.mem_pair.mp ho with rfl | rfl
      · cases hview
        exact ⟨request, client, written, checked, event, accepted, rfl, rfl⟩
      · cases hview
  | answered _ toDonate seq' _ error _ _ _ emitted =>
      rw [emitted] at ho
      rcases onResultAccepted_cases kind.ops toDonate seq' error
        ((machine kind config mapper).state es j).mapper with ⟨-, heq⟩ | ⟨ctx, -, heq⟩
      · rw [heq] at ho
        cases List.mem_singleton.mp ho
        cases hview
      · rw [heq] at ho
        rcases List.mem_cons.mp ho with rfl | ho
        · cases hview
        · obtain ⟨m, -, rfl⟩ := List.mem_map.mp ho
          cases hview
  | inert _ silent _ _ =>
      rw [(view_of_quiet (silent o ho)).1] at hview
      cases hview

/-- What is given an id at step `j` is the submission of that step. -/
theorem Submits.assigned (hkind : LawfulKind kind)
    (h : view.Submits (machine kind config mapper) es j miner requestId seq) (hseq : 0 ≤ seq) :
    ∃ c, PoolClients.Assigned (operations kind config mapper es) j c seq requestId := by
  obtain ⟨request, client, written, checked, hevent, hchecked, rfl, rfl⟩ := submits_cases hkind h
  rcases returned_cases hevent hchecked with ⟨-, hrefused⟩ | ⟨-, c, hassigned⟩
  · rw [hrefused] at hseq
    omega
  · exact ⟨c, hassigned⟩

theorem Submits.owns (hkind : LawfulKind kind)
    (h : view.Submits (machine kind config mapper) es j miner requestId seq) (hseq : 0 ≤ seq)
    (hjk : j < k) : view.Owns (machine kind config mapper) es k miner requestId seq := by
  refine ⟨j, hjk, h, fun i miner' requestId' h' => ?_⟩
  obtain ⟨c, hassigned⟩ := Submits.assigned hkind h hseq
  obtain ⟨c', hassigned'⟩ := Submits.assigned hkind h' hseq
  obtain rfl := hassigned.unique hassigned'
  refine ⟨rfl, ?_, (hassigned.same hassigned').2⟩
  obtain ⟨_, _, _, _, hevent, -⟩ := submits_cases hkind h
  obtain ⟨_, _, _, _, hevent', -⟩ := submits_cases hkind h'
  cases hevent.symm.trans hevent'
  rfl

/-- An entry of the table is a submission that the client returned the key for. -/
theorem result_submitted (hkind : LawfulKind kind) (hempty : mapper.results = ∅) {ctx : SubmitCtx}
    (h : ((machine kind config mapper).state es k).mapper.results.find seq = some ctx) :
    ∃ j < k, view.Submits (machine kind config mapper) es j ctx.minerId ctx.id seq := by
  induction k with
  | zero =>
      change mapper.results.find seq = some ctx at h
      rw [hempty, Table.find_empty] at h
      cases h
  | succ k ih =>
      have hbefore : ((machine kind config mapper).state es k).mapper.results.find seq = some ctx →
          ∃ j < k + 1, view.Submits (machine kind config mapper) es j ctx.minerId ctx.id seq := by
        intro hfind
        obtain ⟨j, hj, hsubmits⟩ := ih hfind
        exact ⟨j, by omega, hsubmits⟩
      cases (step_case hkind es k : StepCase kind config mapper es k _ _ _) with
      | rejected _ _ _ _ _ _ _ same _ =>
          rw [same] at h
          exact hbefore h
      | forwarded miner request client written checked event accepted recorded emitted =>
          rw [recorded] at h
          change (Table.insert _ _ _).find seq = some ctx at h
          rw [Table.find_insert] at h
          split at h
          · next hseq =>
            cases h
            rw [hseq]
            exact ⟨k, by omega, submits_of_mem (emitted ▸ List.mem_cons_self)⟩
          · exact hbefore h
      | answered _ toDonate seq' _ error _ _ after _ =>
          rw [after] at h
          exact hbefore ((onResultAccepted_frame kind.ops toDonate seq' error _).2 _ _ h)
      | inert results _ _ _ =>
          rw [results] at h
          exact hbefore h

/-- A miner that has left is not found. -/
theorem absent_of_left (hkind : LawfulKind kind) (h : view.Left es k miner) :
    kind.ops.miner miner ((machine kind config mapper).state es k).mapper.storage = none := by
  obtain ⟨i, hik, hleaves, hrejoined⟩ := h
  have hafter : kind.ops.miner miner
      ((machine kind config mapper).state es (i + 1)).mapper.storage = none := by
    cases (step_case hkind es i : StepCase kind config mapper es i _ _ _) with
    | rejected _ _ _ _ _ event _ _ _ => cases hleaves.symm.trans event
    | forwarded _ _ _ _ _ event _ _ _ => cases hleaves.symm.trans event
    | answered _ _ _ _ _ event _ _ _ => cases hleaves.symm.trans event
    | inert _ _ _ removed => exact removed miner hleaves
  refine Machine.persists (i := i + 1) hik hafter
    (P := fun s : System σ => kind.ops.miner miner s.mapper.storage = none) fun l hil hlk hl => ?_
  cases (step_case hkind es l : StepCase kind config mapper es l _ _ _) with
  | rejected _ _ _ _ _ _ _ same _ =>
      rw [same]
      exact hl
  | forwarded _ _ _ _ _ _ _ recorded _ =>
      rw [recorded]
      exact hl
  | answered _ toDonate seq _ error _ _ after _ =>
      rw [after, (onResultAccepted_frame kind.ops toDonate seq error _).1]
      exact hl
  | inert _ _ absent _ => exact absent miner (hrejoined l (by omega) hlk) hl

/-- A result that is credited was waited for, and its submitter is found. -/
theorem credit_cases (hkind : LawfulKind kind) {o : Output}
    (ho : o ∈ (machine kind config mapper).emitted es k)
    (hcredit : (∃ seq miner, view.accept o = some (seq, some miner)) ∨
      (view.reply o).isSome = true) :
    ∃ client toDonate seq requestId error ctx,
      PoolClients.Delivered (operations kind config mapper es) k client seq requestId ∧
      ((machine kind config mapper).state es k).mapper.results.find seq = some ctx ∧
      kind.ops.miner ctx.minerId ((machine kind config mapper).state es k).mapper.storage =
        some ctx.minerId ∧
      (machine kind config mapper).emitted es k =
        [.accept ((machine kind config mapper).state es k).mapper.id seq (some ctx.minerId) toDonate
          error, .reply ctx.minerId ctx.id error] := by
  cases (step_case hkind es k : StepCase kind config mapper es k _ _ _) with
  | rejected _ _ _ _ _ _ _ _ emitted =>
      rw [emitted] at ho
      cases List.mem_singleton.mp ho
      rcases hcredit with ⟨_, _, h⟩ | h <;> cases h
  | forwarded _ _ _ _ _ _ _ _ emitted =>
      rw [emitted] at ho
      rcases List.mem_pair.mp ho with rfl | rfl
      · rcases hcredit with ⟨_, _, h⟩ | h <;> cases h
      · rcases hcredit with ⟨_, _, h⟩ | h <;> cases h
  | answered client toDonate seq requestId error _ delivered _ emitted =>
      rw [emitted] at ho ⊢
      rcases onResultAccepted_cases kind.ops toDonate seq error
        ((machine kind config mapper).state es k).mapper with ⟨-, heq⟩ | ⟨ctx, hfind, heq⟩
      · rw [heq] at ho
        cases List.mem_singleton.mp ho
        rcases hcredit with ⟨_, _, h⟩ | h <;> cases h
      · rw [heq] at ho ⊢
        cases hminer : kind.ops.miner ctx.minerId
            ((machine kind config mapper).state es k).mapper.storage with
        | none =>
            rw [hminer] at ho
            cases List.mem_singleton.mp ho
            rcases hcredit with ⟨_, _, h⟩ | h <;> cases h
        | some miner =>
            obtain rfl := kind.ops.miner_eq _ _ _ hminer
            exact ⟨client, toDonate, seq, requestId, error, ctx, delivered, hfind, hminer, rfl⟩
  | inert _ silent _ _ =>
      obtain ⟨-, -, haccept, hreply⟩ := view_of_quiet (silent o ho)
      rcases hcredit with ⟨_, _, h⟩ | h
      · rw [haccept] at h
        cases h
      · rw [hreply] at h
        cases h

/-- The credits of a shared mapper go to the submitter. -/
theorem credits_submitter (hkind : LawfulKind kind) (hempty : mapper.results = ∅)
    (es : ℕ → Event) (k : ℕ) : view.CreditsSubmitter (machine kind config mapper) es k := by
  constructor
  · intro o ho seq miner hview
    obtain ⟨client, toDonate, seq', requestId, error, ctx, hdelivered, hfind, hminer, hout⟩ :=
      credit_cases hkind ho (Or.inl ⟨seq, miner, hview⟩)
    rw [hout] at ho
    rcases List.mem_pair.mp ho with rfl | rfl
    · cases hview
      obtain ⟨j, hj, hassigned⟩ := hdelivered.assigned
      obtain ⟨j, hj, hsubmits⟩ := result_submitted hkind hempty hfind
      refine ⟨⟨ctx.id, Submits.owns hkind hsubmits hassigned.nonneg hj⟩, fun hleft => ?_⟩
      cases (absent_of_left hkind hleft).symm.trans hminer
    · cases hview
  · intro o ho miner requestId hview
    obtain ⟨client, toDonate, seq, _, error, ctx, hdelivered, hfind, hminer, hout⟩ :=
      credit_cases hkind ho (Or.inr (by rw [hview]; rfl))
    rw [hout] at ho ⊢
    rcases List.mem_pair.mp ho with rfl | rfl
    · cases hview
    · cases hview
      obtain ⟨j, hj, hassigned⟩ := hdelivered.assigned
      obtain ⟨j, hj, hsubmits⟩ := result_submitted hkind hempty hfind
      exact ⟨seq, ⟨_, List.mem_cons_self, rfl⟩,
        Submits.owns hkind hsubmits hassigned.nonneg hj⟩

end Runs

end UpstreamMapper

namespace SimpleMapper

/-- What concerns no submission. -/
def Output.isQuiet : Output → Bool
  | .connect _ | .stop _ | .setJob _ | .clearTelemetryJobs _ => true
  | _ => false

theorem view_of_quiet {o : Output} (h : o.isQuiet = true) : view.submitted o = none ∧
    view.finished o = none ∧ view.accept o = none ∧ view.reply o = none := by
  cases o with
  | connect | stop | setJob | clearTelemetryJobs => exact ⟨rfl, rfl, rfl, rfl⟩
  | submitted | finished | accept | reply | outcome => cases h

/-- What leaves the miner of a mapper alone, and reports on no submission. -/
structure Quiet (s s' : State) (out : List Output) : Prop where
  miner : s'.miner = s.miner
  silent : ∀ o ∈ out, o.isQuiet = true

theorem quiet_map {α : Type} (f : α → Output) (hf : ∀ a, (f a).isQuiet = true) (l : List α) :
    ∀ o ∈ l.map f, o.isQuiet = true := by
  intro o ho
  obtain ⟨a, -, rfl⟩ := List.mem_map.mp ho
  exact hf a

theorem quiet_onActive (strategy : ℕ) (s : State) :
    Quiet s (onActive strategy s).1 (onActive strategy s).2 := by
  unfold onActive
  dsimp only
  split
  · exact ⟨rfl, quiet_map _ (fun _ => rfl) _⟩
  · exact ⟨rfl, by simp⟩

theorem quiet_onPause (strategy : ℕ) (s : State) : Quiet s (onPause strategy s) [] := by
  unfold onPause
  split
  · exact ⟨rfl, by simp⟩
  · exact ⟨rfl, by simp⟩

theorem quiet_setJob (now : ℕ) (job : Job) (strategy : ℕ) (s : State) :
    Quiet s (setJob now job strategy s).1 (setJob now job strategy s).2 := by
  unfold setJob
  dsimp only
  split
  · exact ⟨rfl, quiet_map _ (fun _ => rfl) _⟩
  · refine ⟨rfl, fun o ho => ?_⟩
    rcases List.mem_append.mp ho with ho | ho
    · exact quiet_map _ (fun _ => rfl) _ o ho
    · exact quiet_map _ (fun _ => rfl) _ o ho

theorem quiet_stop (s : State) : Quiet s (stop s).1 (stop s).2 := by
  refine ⟨rfl, fun o ho => ?_⟩
  rcases List.mem_cons.mp ho with rfl | ho
  · rfl
  · exact quiet_map _ (fun _ => rfl) _ o ho

theorem quiet_tick (s : State) : Quiet s (tick s) [] := by
  unfold tick
  split
  · exact ⟨rfl, by simp⟩
  · exact ⟨rfl, by simp⟩

section Steps

variable {id : ℕ} {first : MinerId} {es : ℕ → ℕ × Event} {i j k : ℕ}

/-- The operations of the clients in a run. -/
def operations (id : ℕ) (first : MinerId) (es : ℕ → ℕ × Event) : ℕ → PoolClients.Operation :=
  Served.operations operation react (add first { id }).1 es

/-- What the clients report in step `k`. -/
def reports (id : ℕ) (first : MinerId) (es : ℕ → ℕ × Event) : ℕ → List PoolClients.Report :=
  Served.reports operation react (add first { id }).1 es

theorem operation_eq : operations id first es k =
    operation ((machine id first).state es k) (es k) := rfl

/-- An accepted request is the submitted one, but for its difficulty. -/
theorem checkSubmit_id {now strategy : ℕ} {event : SubmitEvent} {s : State} {checked : JobResult}
    (h : checkSubmit now event s = .ok (strategy, checked)) : checked.id = event.request.id := by
  unfold checkSubmit at h
  split at h
  · cases h
  · split at h
    · split at h
      · cases h
      · cases h
        rfl
    · cases h

/-- What a step can do about submissions, and about the miner of the mapper. -/
inductive StepCase (id : ℕ) (first : MinerId) (es : ℕ → ℕ × Event) (k : ℕ) (s s' : State)
    (out : List Output) : Prop
  | rejected (now : ℕ) (miner : MinerId) (request : JobResult) (client : Option ℕ)
      (written : Bool) (error : Error) (event : es k = (now, .submit miner request client written))
      (checked : checkSubmit now ⟨miner, request, .NoError⟩ s = .error error)
      (same : s' = s) (emitted : out = [.finished ⟨miner, request, error⟩])
  | forwarded (now : ℕ) (miner : MinerId) (request : JobResult) (client : Option ℕ)
      (written : Bool) (strategy : ℕ) (checked : JobResult)
      (event : es k = (now, .submit miner request client written)) (held : s.miner = some miner)
      (accepted : checkSubmit now ⟨miner, request, .NoError⟩ s = .ok (strategy, checked))
      (same : s' = s)
      (emitted : out = [.submitted strategy miner checked
        (PoolClients.returned (reports id first es k)),
        .finished (if PoolClients.returned (reports id first es k) < 0 then
          ⟨miner, request, .BadGateway⟩ else ⟨miner, request, .NoError⟩)])
  | answered (now client : ℕ) (seq pooled requestId : ℤ) (ambiguous : Bool) (error : Option String)
      (event : es k = (now, .pool client (.result seq pooled ambiguous error)))
      (delivered : PoolClients.Delivered (operations id first es) k client seq requestId)
      (same : s' = s) (emitted : out = (onResultAccepted seq requestId ambiguous error s).2)
  | inert (silent : ∀ o ∈ out, o.isQuiet = true)
      (holder : ∀ miner, s'.miner = some miner → (s.miner = some miner ∧ (es k).2 ≠ .remove miner) ∨
        (es k).2 = .reuse miner)

theorem StepCase.of_quiet {s s' : State} {out : List Output} (h : Quiet s s' out)
    (hremove : ∀ miner, (es k).2 ≠ .remove miner) : StepCase id first es k s s' out :=
  .inert h.silent fun miner hm => Or.inl ⟨h.miner ▸ hm, hremove miner⟩

theorem step_case (id : ℕ) (first : MinerId) (es : ℕ → ℕ × Event) (k : ℕ) :
    StepCase id first es k ((machine id first).state es k).mapper
      ((machine id first).state es (k + 1)).mapper ((machine id first).emitted es k) := by
  change StepCase id first es k _ ((Served.machine _ _ _).state es (k + 1)).mapper
    ((Served.machine _ _ _).emitted es k)
  rw [Served.mapper_succ, Served.emitted_eq]
  change StepCase id first es k ((machine id first).state es k).mapper
    (react (reports id first es k) (es k) ((machine id first).state es k).mapper).1
    (react (reports id first es k) (es k) ((machine id first).state es k).mapper).2
  generalize hs : ((machine id first).state es k).mapper = s
  rcases hevent : es k with ⟨now, event⟩
  cases event with
  | remove miner =>
      refine .inert (by simp [react]) fun other hother => ?_
      dsimp only [react] at hother
      split at hother
      · cases hother
      · next hne =>
        left
        refine ⟨hother, ?_⟩
        rw [hevent]
        rintro heq
        cases heq
        exact hne hother
  | reuse miner =>
      dsimp only [react]
      split
      · refine .inert ?_ fun other hother => Or.inr ?_
        · dsimp only [reuse]
          split
          · simp [Output.isQuiet]
          · simp
        · cases hother
          rw [hevent]
      · exact .of_quiet ⟨rfl, by simp⟩ fun _ => by simp [hevent]
  | submit miner request client written =>
      dsimp only [react]
      split
      · next hheld =>
        cases hchecked : checkSubmit now ⟨miner, request, .NoError⟩ s with
        | error error =>
            simp only [submit, hchecked]
            exact .rejected now miner request client written error hevent hchecked rfl rfl
        | ok checked =>
            obtain ⟨strategy, checked⟩ := checked
            simp only [submit, hchecked]
            exact .forwarded now miner request client written strategy checked hevent hheld hchecked
              rfl rfl
      · exact .of_quiet ⟨rfl, by simp⟩ fun _ => by simp [hevent]
  | pool client event =>
      cases event with
      | result seq pooled ambiguous error =>
          have hop : operations id first es k = .answer client seq := by
            rw [operation_eq, hevent]
            rfl
          rcases Served.delivered_of_answer hop with hnone | ⟨requestId, hone, hdelivered⟩
          · have hnone : reports id first es k = [] := hnone
            simp only [react, deliver, hnone]
            exact .of_quiet ⟨rfl, by simp [Handler.skip]⟩ fun _ => by simp [hevent]
          · have hone : reports id first es k = [.delivered client seq requestId] := hone
            simp only [react, deliver, hone]
            exact .answered now client seq pooled requestId ambiguous error
              hevent hdelivered rfl rfl
      | active strategy => exact .of_quiet (quiet_onActive strategy s) fun _ => by simp [hevent]
      | pause strategy => exact .of_quiet (quiet_onPause strategy s) fun _ => by simp [hevent]
      | job strategy job =>
          exact .of_quiet (quiet_setJob now job strategy s) fun _ => by simp [hevent]
  | login client => exact .of_quiet ⟨rfl, by simp [react, Handler.skip]⟩ fun _ => by simp [hevent]
  | close client => exact .of_quiet ⟨rfl, by simp [react, Handler.skip]⟩ fun _ => by simp [hevent]
  | others count => exact .of_quiet ⟨rfl, by simp [react, Handler.skip]⟩ fun _ => by simp [hevent]
  | tick => exact .of_quiet (quiet_tick s) fun _ => by simp [hevent]
  | reload =>
      exact .of_quiet ⟨rfl, by simp [react, reload, Output.isQuiet]⟩ fun _ => by simp [hevent]
  | stop => exact .of_quiet (quiet_stop s) fun _ => by simp [hevent]

end Steps

section Runs

variable {id : ℕ} {first : MinerId} {es : ℕ → ℕ × Event} {i j k : ℕ} {miner : MinerId}
  {requestId seq : ℤ}

/-- A request goes upstream when it is the holder's, and the checks let it through. -/
theorem submits_cases (h : view.Submits (machine id first) es j miner requestId seq) :
    ∃ now request client written strategy checked,
      es j = (now, .submit miner request client written) ∧
      ((machine id first).state es j).mapper.miner = some miner ∧
      checkSubmit now ⟨miner, request, .NoError⟩ ((machine id first).state es j).mapper =
        .ok (strategy, checked) ∧
      requestId = checked.id ∧ seq = PoolClients.returned (reports id first es j) := by
  obtain ⟨o, ho, hview⟩ := h
  cases step_case id first es j with
  | rejected _ _ _ _ _ _ _ _ _ emitted =>
      rw [emitted] at ho
      cases List.mem_singleton.mp ho
      cases hview
  | forwarded now miner' request client written strategy checked event held accepted _ emitted =>
      rw [emitted] at ho
      rcases List.mem_pair.mp ho with rfl | rfl
      · cases hview
        exact ⟨now, request, client, written, strategy, checked, event, held, accepted, rfl, rfl⟩
      · cases hview
  | answered _ _ seq' _ requestId' ambiguous error _ _ _ emitted =>
      rw [emitted] at ho
      dsimp only [onResultAccepted] at ho
      rcases List.mem_cons.mp ho with rfl | ho
      · cases hview
      · split at ho
        · cases ho
        · rcases List.mem_cons.mp ho with rfl | ho
          · cases hview
          · split at ho
            · cases ho
            · cases List.mem_singleton.mp ho
              cases hview
  | inert silent _ =>
      rw [(view_of_quiet (silent o ho)).1] at hview
      cases hview

/-- The client that a submission names, and whether it can send it. -/
theorem returned_cases {now strategy : ℕ} {request checked : JobResult} {client : Option ℕ}
    {written : Bool} (hevent : es k = (now, .submit miner request client written))
    (hheld : ((machine id first).state es k).mapper.miner = some miner)
    (hchecked : checkSubmit now ⟨miner, request, .NoError⟩ ((machine id first).state es k).mapper =
      .ok (strategy, checked)) :
    PoolClients.returned (reports id first es k) = -1 ∨
      ∃ c, PoolClients.Assigned (operations id first es) k c
        (PoolClients.returned (reports id first es k)) checked.id := by
  cases client with
  | none =>
      have hop : operations id first es k = .others 0 := by
        rw [operation_eq, hevent]
        rfl
      exact Or.inl (Served.returned_others hop)
  | some c =>
      have hop : operations id first es k = .submit c checked.id written := by
        rw [operation_eq, hevent]
        simp only [operation, hheld, hchecked, if_true]
      have hreturned := Served.returned_submit hop
      split at hreturned
      · exact Or.inr ⟨c, hreturned⟩
      · exact Or.inl hreturned

theorem Submits.assigned (h : view.Submits (machine id first) es j miner requestId seq)
    (hseq : 0 ≤ seq) : ∃ c, PoolClients.Assigned (operations id first es) j c seq requestId := by
  obtain ⟨now, request, client, written, strategy, checked, hevent, hheld, hchecked, rfl, rfl⟩ :=
    submits_cases h
  rcases returned_cases hevent hheld hchecked with hrefused | ⟨c, hassigned⟩
  · rw [hrefused] at hseq
    omega
  · exact ⟨c, hassigned⟩

theorem Submits.owns (h : view.Submits (machine id first) es j miner requestId seq)
    (hseq : 0 ≤ seq) (hjk : j < k) : view.Owns (machine id first) es k miner requestId seq := by
  refine ⟨j, hjk, h, fun i miner' requestId' h' => ?_⟩
  obtain ⟨c, hassigned⟩ := Submits.assigned h hseq
  obtain ⟨c', hassigned'⟩ := Submits.assigned h' hseq
  obtain rfl := hassigned.unique hassigned'
  refine ⟨rfl, ?_, (hassigned.same hassigned').2⟩
  obtain ⟨_, _, _, _, _, _, hevent, -⟩ := submits_cases h
  obtain ⟨_, _, _, _, _, _, hevent', -⟩ := submits_cases h'
  cases hevent.symm.trans hevent'
  rfl

theorem operation_submit {s : System} {e : ℕ × Event} {c : ℕ} {written : Bool}
    (h : operation s e = .submit c requestId written) :
    ∃ miner request strategy checked, e.2 = .submit miner request (some c) written ∧
      s.mapper.miner = some miner ∧
      checkSubmit e.1 ⟨miner, request, .NoError⟩ s.mapper = .ok (strategy, checked) ∧
      checked.id = requestId := by
  unfold operation at h
  split at h
  · next miner request client written' hevent =>
    split at h
    · next hheld =>
      split at h
      · next strategy checked hchecked =>
        cases h
        exact ⟨miner, request, strategy, checked, hevent, hheld, hchecked, rfl⟩
      · cases h
    · cases h
  all_goals cases h

/-- What a client sends is a submission of the miner that holds the mapper. -/
theorem assigned_submits {c : ℕ}
    (h : PoolClients.Assigned (operations id first es) k c seq requestId) :
    ∃ miner, view.Submits (machine id first) es k miner requestId seq ∧
      ((machine id first).state es k).mapper.miner = some miner ∧
      ((machine id first).state es (k + 1)).mapper.miner = some miner := by
  obtain ⟨hop, hconnected, -⟩ := PoolClients.assigned_iff.mp h
  obtain ⟨miner, request, strategy, checked, hevent, hheld, hchecked, rfl⟩ := operation_submit hop
  change ((machine id first).state es k).mapper.miner = some miner at hheld
  change checkSubmit (es k).1 ⟨miner, request, .NoError⟩ ((machine id first).state es k).mapper =
    .ok (strategy, checked) at hchecked
  have hreturned : PoolClients.Assigned (operations id first es) k c
      (PoolClients.returned (reports id first es k)) checked.id := by
    have := Served.returned_submit hop
    rwa [if_pos ⟨by rw [Served.clients_state]; exact hconnected, rfl⟩] at this
  have hseq : PoolClients.returned (reports id first es k) = seq :=
    hreturned.seq_eq.trans h.seq_eq.symm
  have hreact : react (reports id first es k) (es k) ((machine id first).state es k).mapper =
      (((machine id first).state es k).mapper, [.submitted strategy miner checked seq,
        .finished (if seq < 0 then ⟨miner, request, .BadGateway⟩
          else ⟨miner, request, .NoError⟩)]) := by
    simp only [react, hevent, hheld, if_true, submit, hchecked, hseq]
    rfl
  refine ⟨miner, ⟨.submitted strategy miner checked seq, ?_, rfl⟩, hheld, ?_⟩
  · change _ ∈ (Served.machine _ _ _).emitted es k
    rw [Served.emitted_eq]
    change _ ∈ (react (reports id first es k) (es k) ((machine id first).state es k).mapper).2
    rw [hreact]
    exact List.mem_cons_self
  · change ((Served.machine operation react (add first { id }).1).state es (k + 1)).mapper.miner = _
    rw [Served.mapper_succ]
    change (react (reports id first es k) (es k) ((machine id first).state es k).mapper).1.miner = _
    rw [hreact]
    exact hheld

/-- While an answer is outstanding, the mapper is held by its submitter, or by nobody. -/
theorem waits_holder (hidle : ∀ j < k, HandedOverIdle ((machine id first).state es j) (es j))
    {c : ℕ} (h : PoolClients.Waits ((machine id first).state es k).clients c seq requestId) :
    ∃ j < k, ∃ miner, view.Submits (machine id first) es j miner requestId seq ∧ 0 ≤ seq ∧
      ∀ holder, ((machine id first).state es k).mapper.miner = some holder → holder = miner := by
  induction k with
  | zero => cases h.1
  | succ k ih =>
      have hstep : ((machine id first).state es (k + 1)).clients =
          (PoolClients.step (operations id first es k) ((machine id first).state es k).clients).1 :=
            rfl
      rw [hstep] at h
      rcases PoolClients.waits_step h with ⟨hbefore, -⟩ | hassigned
      · obtain ⟨j, hj, miner, hsubmits, hseq, hholder⟩ :=
          ih (fun j hj => hidle j (by omega)) hbefore
        refine ⟨j, by omega, miner, hsubmits, hseq, fun holder hheld => ?_⟩
        cases step_case id first es k with
        | rejected _ _ _ _ _ _ _ _ same _ => exact hholder holder (same ▸ hheld)
        | forwarded _ _ _ _ _ _ _ _ _ _ same _ => exact hholder holder (same ▸ hheld)
        | answered _ _ _ _ _ _ _ _ _ same _ => exact hholder holder (same ▸ hheld)
        | inert _ holds =>
            rcases holds holder hheld with ⟨hheld, -⟩ | hreuse
            · exact hholder holder hheld
            · exact absurd hbefore (hidle k (by omega) holder hreuse c seq requestId)
      · have hassigned : PoolClients.Assigned (operations id first es) k c seq requestId := by
          change _ ∈ reports id first es k
          rw [reports, Served.reports_eq]
          exact hassigned
        obtain ⟨miner, hsubmits, -, hafter⟩ := assigned_submits hassigned
        refine ⟨k, by omega, miner, hsubmits, hassigned.nonneg, fun holder hheld => ?_⟩
        exact Option.some.inj (hheld.symm.trans hafter)

/-- A miner that has left does not hold the mapper. -/
theorem absent_of_left (h : view.Left es k miner) :
    ((machine id first).state es k).mapper.miner ≠ some miner := by
  obtain ⟨i, hik, hleaves, hrejoined⟩ := h
  have hafter : ((machine id first).state es (i + 1)).mapper.miner ≠ some miner := by
    intro hheld
    cases step_case id first es i with
    | rejected _ _ _ _ _ _ event _ _ _ => rw [event] at hleaves; cases hleaves
    | forwarded _ _ _ _ _ _ _ event _ _ _ _ => rw [event] at hleaves; cases hleaves
    | answered _ _ _ _ _ _ _ event _ _ _ => rw [event] at hleaves; cases hleaves
    | inert _ holds =>
        rcases holds miner hheld with ⟨-, hremove⟩ | hreuse
        · exact hremove hleaves
        · cases hreuse.symm.trans hleaves
  refine Machine.persists (i := i + 1) hik hafter
    (P := fun s : System => s.mapper.miner ≠ some miner) fun l hil hlk hl => ?_
  intro hheld
  cases step_case id first es l with
  | rejected _ _ _ _ _ _ _ _ same _ => exact hl (same ▸ hheld)
  | forwarded _ _ _ _ _ _ _ _ _ _ same _ => exact hl (same ▸ hheld)
  | answered _ _ _ _ _ _ _ _ _ same _ => exact hl (same ▸ hheld)
  | inert _ holds =>
      rcases holds miner hheld with ⟨hheld, -⟩ | hreuse
      · exact hl hheld
      · exact hrejoined l (by omega) hlk hreuse

/-- A result that is credited was waited for, and goes to the holder of the mapper. -/
theorem credit_cases {o : Output} (ho : o ∈ (machine id first).emitted es k)
    (hcredit : (∃ seq miner, view.accept o = some (seq, some miner)) ∨
      (view.reply o).isSome = true) :
    ∃ client seq requestId miner, ∃ ambiguous : Bool, ∃ error,
      PoolClients.Delivered (operations id first es) k client seq requestId ∧
      ((machine id first).state es k).mapper.miner = some miner ∧
      (machine id first).emitted es k =
        .accept ((machine id first).state es k).mapper.id seq (some miner) error ::
          .reply miner requestId error ::
            if ambiguous then [] else [.outcome miner error.isNone] := by
  cases step_case id first es k with
  | rejected _ _ _ _ _ _ _ _ _ emitted =>
      rw [emitted] at ho
      cases List.mem_singleton.mp ho
      rcases hcredit with ⟨_, _, h⟩ | h <;> cases h
  | forwarded _ _ _ _ _ _ _ _ _ _ _ emitted =>
      rw [emitted] at ho
      rcases List.mem_pair.mp ho with rfl | rfl
      · rcases hcredit with ⟨_, _, h⟩ | h <;> cases h
      · rcases hcredit with ⟨_, _, h⟩ | h <;> cases h
  | answered _ client seq _ requestId ambiguous error _ delivered _ emitted =>
      rw [emitted] at ho ⊢
      dsimp only [onResultAccepted] at ho ⊢
      cases hheld : ((machine id first).state es k).mapper.miner with
      | none =>
          rw [hheld] at ho
          cases List.mem_singleton.mp ho
          rcases hcredit with ⟨_, _, h⟩ | h <;> cases h
      | some miner =>
          exact ⟨client, seq, requestId, miner, ambiguous, error, delivered, rfl, rfl⟩
  | inert silent _ =>
      obtain ⟨-, -, haccept, hreply⟩ := view_of_quiet (silent o ho)
      rcases hcredit with ⟨_, _, h⟩ | h
      · rw [haccept] at h
        cases h
      · rw [hreply] at h
        cases h

/-- The credits of a simple mapper go to the submitter, if it is handed over without outstanding
answers. -/
theorem credits_submitter (es : ℕ → ℕ × Event) (k : ℕ)
    (hidle : ∀ j < k, HandedOverIdle ((machine id first).state es j) (es j)) :
    view.CreditsSubmitter (machine id first) es k := by
  have howner : ∀ {client seq requestId miner},
      PoolClients.Delivered (operations id first es) k client seq requestId →
      ((machine id first).state es k).mapper.miner = some miner →
      view.Owns (machine id first) es k miner requestId seq := by
    intro client seq requestId miner hdelivered hheld
    have hwaits : PoolClients.Waits ((machine id first).state es k).clients
        client seq requestId := by
      change PoolClients.Waits ((Served.machine _ _ _).state es k).clients client seq requestId
      rw [Served.clients_state]
      exact (PoolClients.delivered_iff.mp hdelivered).2
    obtain ⟨j, hj, submitter, hsubmits, hseq, hholder⟩ := waits_holder hidle hwaits
    rw [hholder miner hheld]
    exact Submits.owns hsubmits hseq hj
  constructor
  · intro o ho seq miner hview
    obtain ⟨client, seq', requestId, miner', ambiguous, error, hdelivered, hheld, hout⟩ :=
      credit_cases ho (Or.inl ⟨seq, miner, hview⟩)
    rw [hout] at ho
    rcases List.mem_cons.mp ho with rfl | ho
    · cases hview
      exact ⟨⟨requestId, howner hdelivered hheld⟩, fun hleft => absent_of_left hleft hheld⟩
    · rcases List.mem_cons.mp ho with rfl | ho
      · cases hview
      · split at ho
        · cases ho
        · cases List.mem_singleton.mp ho
          cases hview
  · intro o ho miner requestId hview
    obtain ⟨client, seq, requestId', miner', ambiguous, error, hdelivered, hheld, hout⟩ :=
      credit_cases ho (Or.inr (by rw [hview]; rfl))
    rw [hout] at ho ⊢
    rcases List.mem_cons.mp ho with rfl | ho
    · cases hview
    · rcases List.mem_cons.mp ho with rfl | ho
      · cases hview
        exact ⟨seq, ⟨_, List.mem_cons_self, rfl⟩, howner hdelivered hheld⟩
      · split at ho
        · cases ho
        · cases List.mem_singleton.mp ho
          cases hview

end Runs

end SimpleMapper

/-- The shared mappers credit the submitter in every run, the simple one in every run in which it
is handed over without outstanding answers. -/
theorem results_reach_submitter (k : ℕ) :
    (∀ config id index target es, UpstreamMapper.view.CreditsSubmitter
      (UpstreamMapper.machine UpstreamMapper.nonceKind config
        (NonceMapper.create config id index target)) es k) ∧
    (∀ config target es, UpstreamMapper.view.CreditsSubmitter
      (UpstreamMapper.machine UpstreamMapper.extraNonceKind config
        (ExtraNonceMapper.create config target)) es k) ∧
    (∀ id first es,
      (∀ j < k, SimpleMapper.HandedOverIdle ((SimpleMapper.machine id first).state es j) (es j)) →
      SimpleMapper.view.CreditsSubmitter (SimpleMapper.machine id first) es k) := by
  refine ⟨fun config id index target es => ?_, fun config target es => ?_,
    fun id first es hidle => SimpleMapper.credits_submitter es k hidle⟩
  · exact UpstreamMapper.credits_submitter UpstreamMapper.lawful_nonceKind rfl es k
  · exact UpstreamMapper.credits_submitter UpstreamMapper.lawful_extraNonceKind rfl es k

namespace SimpleMapper

def handedJob (id : String) : Job :=
  { algorithm := Algorithm.RX_0
    id
    diff := 1000
    height := 1
    rawBlob := ""
    blob := [0] }

def handedShare : JobResult := { id := 7, jobId := some "a" }

def firstMiner : MinerId := 1

/-- The first miner submits and leaves, the next job makes the mapper reusable, and the second
miner takes it over; the answer comes before that, or after. -/
def handover (early : Bool) : List (ℕ × Event) :=
  let answer : ℕ × Event := (0, .pool 0 (.result 1 0 false none))
  [(0, .login 0), (0, .pool 0 (.active 0)), (0, .pool 0 (.job 0 (handedJob "a"))),
    (0, .submit firstMiner handedShare (some 0) true)] ++ (if early then [answer] else []) ++
    [(0, .remove firstMiner), (0, .pool 0 (.job 0 (handedJob "b"))), (0, .reuse 2)] ++
    (if early then [] else [answer])

def handoverRun (early : Bool) (k : ℕ) : ℕ × Event := follow (handover early) (0, .tick) k

theorem late_result_misdelivered :
    ¬ ∀ id first es k, view.CreditsSubmitter (machine id first) es k := by
  intro h
  have hout : (machine 0 1).emitted (handoverRun false) 7 =
      [.accept 0 1 (some 2) none, .reply 2 7 none, .outcome 2 true] := rfl
  have haccept : .accept 0 1 (some 2) none ∈ (machine 0 1).emitted (handoverRun false) 7 := by
    rw [hout]
    exact List.mem_cons_self
  obtain ⟨⟨requestId, j, hj, hsubmits, -⟩, -⟩ :=
    (h 0 1 (handoverRun false) 7).accept _ haccept 1 2 rfl
  obtain ⟨now, request, client, written, _, _, hevent, -⟩ := submits_cases hsubmits
  -- Only the first miner submits.
  interval_cases j <;> simp [handoverRun, handover, follow, firstMiner] at hevent

/-- Answered before the mapper is handed over, the share is credited to its submitter. -/
theorem results_reach_submitter_answered :
    (machine 0 1).emitted (handoverRun true) 4 =
      [.accept 0 1 (some 1) none, .reply 1 7 none, .outcome 1 true] ∧
      (handoverRun true 7).2 = .reuse 2 ∧
      view.CreditsSubmitter (machine 0 1) (handoverRun true) 8 := by
  refine ⟨rfl, rfl, (results_reach_submitter 8).2.2 0 1 (handoverRun true) ?_⟩
  intro j hj miner hreuse c seq requestId hwaits
  interval_cases j
  all_goals try (simp [handoverRun, handover, follow] at hreuse; done)
  cases c with
  | zero =>
      have hnone : (((machine 0 1).state (handoverRun true) 7).clients.clients 0).results = ∅ := rfl
      have hfind := hwaits.2
      rw [hnone, Table.find_empty] at hfind
      cases hfind
  | succ c => cases hwaits.1
end SimpleMapper

end XmrigProxy
