import XmrigProxy.TemplateProgress

/-! The requests of the template source and the responses that are delivered to it. A request is in
flight from the step that fetches it to the step that delivers its response, whatever the flags of
the source say; in an open source the flags say the same. -/
namespace XmrigProxy.DaemonTemplateSource

open Handler
open DaemonSubmission (HttpData)

section Completions

def IsCompletion : Output → Prop
  | .completed _ _ => True
  | _ => False

/-- The handler completes no request. -/
def CompletesNothing (f : Handler State Output) : Prop := ∀ s, ∀ o ∈ (f s).2, ¬ IsCompletion o

variable {env : Env} {f g : Handler State Output}

theorem CompletesNothing.seq (hf : CompletesNothing f) (hg : CompletesNothing g) :
    CompletesNothing (seq f g) := by
  intro s o ho
  rcases List.mem_append.mp ho with ho | ho
  · exact hf s o ho
  · exact hg _ o ho

theorem completesNothing_shutdown : CompletesNothing shutdown := by
  intro s o ho
  unfold shutdown at ho
  split at ho
  · exact absurd ho List.not_mem_nil
  · obtain rfl := List.mem_singleton.mp ho
    exact not_false

theorem completesNothing_notify (env : Env) (o : Output) (ho : ¬ IsCompletion o) :
    CompletesNothing (notify env o) := by
  intro s o' ho'
  rcases emitted_notify env o s with h | h <;> rw [h] at ho'
  · obtain rfl := List.mem_singleton.mp ho'
    exact ho
  · rcases List.mem_pair.mp ho' with rfl | rfl
    · exact ho
    · exact not_false

theorem completesNothing_requestTemplate (env : Env) (reason : RefreshReason) :
    CompletesNothing (requestTemplate env reason) := by
  intro s
  unfold requestTemplate
  split
  · exact fun o ho => absurd ho List.not_mem_nil
  · split
    · exact fun o ho => absurd ho List.not_mem_nil
    · refine ((completesNothing_notify env (.request _) not_false).seq fun s o ho => ?_) _
      split at ho
      · exact absurd ho List.not_mem_nil
      · obtain rfl := List.mem_singleton.mp ho
        exact not_false

theorem completesNothing_requestHeight (env : Env) (followup : Bool) :
    CompletesNothing (requestHeight env followup) := by
  intro s
  unfold requestHeight
  split
  · exact fun o ho => absurd ho List.not_mem_nil
  · split
    · exact fun o ho => absurd ho List.not_mem_nil
    · refine ((completesNothing_notify env (.request _) not_false).seq fun s o ho => ?_) _
      split at ho
      · exact absurd ho List.not_mem_nil
      · obtain rfl := List.mem_singleton.mp ho
        exact not_false

theorem completesNothing_drainTemplateQueue (env : Env) :
    CompletesNothing (drainTemplateQueue env) := by
  intro s
  unfold drainTemplateQueue
  split
  · exact fun o ho => absurd ho List.not_mem_nil
  · dsimp only
    split
    · exact fun o ho => absurd ho List.not_mem_nil
    · exact completesNothing_requestTemplate env _ _

theorem completesNothing_drainHeightQueue (env : Env) (covered : Bool) :
    CompletesNothing (drainHeightQueue env covered) := by
  intro s
  unfold drainHeightQueue
  split
  · exact fun o ho => absurd ho List.not_mem_nil
  · exact completesNothing_requestHeight env _ _

theorem completesNothing_silent {f : State → State} :
    CompletesNothing (fun s => (f s, [])) := fun _ _ ho => absurd ho List.not_mem_nil

/-- A response to a request in flight completes it, and nothing else. -/
theorem onHttpData_completes (env : Env) {kind : RequestKind} {rpcId : ℕ} (data : HttpData)
    {s : State} (hopen : s.isShutdown = false) (hflight : rpcId ∈ s.inFlight kind) :
    ∃ rest, (onHttpData env kind rpcId data s).2 = .completed kind rpcId :: rest ∧
      ∀ o ∈ rest, ¬ IsCompletion o := by
  unfold onHttpData
  rw [if_neg (by simp [hopen])]
  cases kind with
  | blockTemplate =>
      by_cases hmarked : s.templateInFlight = true
      · obtain rfl : rpcId = s.templateRequest.requestId := by
          simpa [State.inFlight, hmarked] using hflight
        dsimp only
        rw [if_neg (by simp [hmarked])]
        split
        · refine ⟨_, rfl, ?_⟩
          refine ((completesNothing_notify env (.error _ _) not_false).seq <|
            (completesNothing_drainTemplateQueue env).seq <|
              (completesNothing_drainHeightQueue env false).seq completesNothing_silent) _
        · refine ⟨_, rfl, ?_⟩
          refine ((completesNothing_notify env (.snapshot _) not_false).seq <|
            CompletesNothing.seq (fun s o ho => ?_) <|
              (completesNothing_drainTemplateQueue env).seq <|
                completesNothing_drainHeightQueue env _) _
          split at ho
          · exact absurd ho List.not_mem_nil
          · obtain rfl := List.mem_singleton.mp ho
            exact not_false
      · simp [State.inFlight, hmarked] at hflight
  | height =>
      by_cases hmarked : s.heightInFlight = true
      · obtain rfl : rpcId = s.heightRequest.requestId := by
          simpa [State.inFlight, hmarked] using hflight
        dsimp only
        rw [if_neg (by simp [hmarked])]
        split
        · refine ⟨_, rfl, ?_⟩
          refine ((completesNothing_notify env (.error _ _) not_false).seq fun s o ho => ?_) _
          dsimp only at ho
          split at ho
          · exact absurd ho List.not_mem_nil
          · split at ho <;> exact absurd ho List.not_mem_nil
        · refine ⟨_, rfl, ?_⟩
          dsimp only
          split
          · exact fun o ho => absurd ho List.not_mem_nil
          · exact ((completesNothing_notify env (.tipChanged _ _) not_false).seq fun s =>
              completesNothing_requestTemplate env .zmq _) _
      · simp [State.inFlight, hmarked] at hflight

/-- A source that was shut down does nothing more. -/
theorem handle_shut (env : Env) (e : Event) {s : State} (hshut : s.isShutdown = true) :
    handle env e s = (s, []) := by
  cases e with
  | start => simp [handle, start, hshut]
  | timer => simp [handle, hshut]
  | zmqTimer => simp [handle, hshut]
  | zmq => simp [handle, hshut]
  | response kind rpcId data => simp [handle, onHttpData, hshut]
  | shutdown => simp [handle, shutdown, hshut]

/-- Only a response completes a request. -/
theorem handle_completesNothing (env : Env) {e : Event}
    (he : ∀ kind id data, e ≠ .response kind id data) : CompletesNothing (handle env e) := by
  intro s
  cases e with
  | start =>
      unfold handle start
      dsimp only
      split
      · exact fun o ho => absurd ho List.not_mem_nil
      · exact completesNothing_requestTemplate env _ _
  | timer =>
      unfold handle
      dsimp only
      split
      · exact fun o ho => absurd ho List.not_mem_nil
      · exact completesNothing_requestTemplate env _ _
  | zmqTimer =>
      unfold handle
      dsimp only
      split
      · exact fun o ho => absurd ho List.not_mem_nil
      · exact completesNothing_requestHeight env _ _
  | zmq =>
      unfold handle
      dsimp only
      split
      · exact fun o ho => absurd ho List.not_mem_nil
      · refine ((completesNothing_notify env (.notification _) not_false).seq fun s => ?_) _
        split
        · exact fun o ho => absurd ho List.not_mem_nil
        · exact completesNothing_requestHeight env _ _
  | response kind rpcId data => exact absurd rfl (he kind rpcId data)
  | shutdown => exact completesNothing_shutdown s

end Completions

section Started

variable {env : Env}

/-- Once started, a source is until it is shut down. -/
def Started : State → List Output → Prop := WhileOpen fun s _ => s.started = true

theorem requestTemplate_started (env : Env) (reason : RefreshReason) :
    Leads Started Started (requestTemplate env reason) := by
  refine leads_open (fun _ => id) fun s tr _ h => ?_
  by_cases hbusy : s.templateInFlight = true
  · rw [if_pos hbusy]
    exact fun _ => h
  · rw [if_neg hbusy]
    have hsend : ∀ request : RequestMetadata, Leads Started Started
        (seq (notify env (.request request)) fun s =>
          if s.isShutdown then ({ s with templateInFlight := false }, [])
          else (s, [.fetch .blockTemplate request.requestId])) :=
      fun request => (open_notify env (.request request)).seq
        (leads_open (fun _ => id) fun s tr _ h _ => h)
    exact hsend _ _ tr fun _ => h

theorem requestHeight_started (env : Env) (followup : Bool) :
    Leads Started Started (requestHeight env followup) :=
  templates_requestHeight env followup fun _ _ _ _ hsame h => hsame.started.trans h

theorem drainTemplateQueue_started (env : Env) :
    Leads Started Started (drainTemplateQueue env) := by
  intro s tr h
  unfold drainTemplateQueue
  split
  · rwa [List.append_nil]
  · dsimp only
    split
    · exact h
    · exact requestTemplate_started env _ _ tr h

theorem drainHeightQueue_started (env : Env) (covered : Bool) :
    Leads Started Started (drainHeightQueue env covered) :=
  templates_drainHeightQueue env covered fun _ _ _ _ hsame h => hsame.started.trans h

theorem onHttpData_started (env : Env) (kind : RequestKind) (rpcId : ℕ) (data : HttpData) :
    Leads Started Started (onHttpData env kind rpcId data) := by
  refine leads_open (fun _ => id) fun s tr hs h => ?_
  have hnotify : ∀ o, Leads Started Started (notify env o) := fun o => open_notify env o
  cases kind with
  | blockTemplate =>
      dsimp only
      split
      · exact fun _ => h
      · split
        · have hrearm : Leads Started Started (fun s : State =>
              (if !s.isShutdown && !s.templateInFlight && !s.templatePending then
                { s with timer := true } else s, ([] : List Output))) := by
            intro s tr h
            dsimp only
            split <;> exact h
          exact ((hnotify _).seq <| (drainTemplateQueue_started env).seq <|
            (drainHeightQueue_started env false).seq hrearm) _ tr fun _ => h
        · have hobserve : ∀ height : ℕ, Leads Started Started
              (fun s => (s, if s.isShutdown then [] else [.observeHeight height])) :=
            fun _ _ _ h => h
          exact ((hnotify _).seq <| (hobserve _).seq <| (drainTemplateQueue_started env).seq <|
            drainHeightQueue_started env _) _ tr fun _ => h
  | height =>
      dsimp only
      split
      · exact fun _ => h
      · split
        · have hretry : ∀ followup, Leads Started Started (fun s : State =>
              let s := { s with heightPending := false }
              if s.isShutdown then (s, [])
              else if s.zmqHeightRetries + 1 ≤ kMaxZmqHeightRetries then
                ({ s with
                    zmqHeightRetries := s.zmqHeightRetries + 1
                    heightRetryFollowup := followup
                    zmqTimer := true }, ([] : List Output))
              else ({ s with zmqHeightRetries := 0, heightRetryFollowup := false }, [])) := by
            intro followup s tr h
            dsimp only
            split
            · exact h
            · split <;> exact h
          exact ((hnotify _).seq (hretry _)) _ tr fun _ => h
        · have hcompare : ∀ followup pending height hash, Leads Started Started
              (fun s => if s.latest.any fun latest => hash = latest.prevHash then
                (sameTip followup pending s, []) else newTip env pending height hash s) := by
            intro followup pending height hash s tr h
            dsimp only
            split
            · intro hopen
              rw [isShutdown_sameTip] at hopen
              exact (sameTip_templates followup pending s).started.trans (h hopen)
            · have hrequest : Leads Started Started
                  (fun s => requestTemplate env .zmq { s with heightPending := pending }) :=
                fun s tr h => requestTemplate_started env .zmq _ tr h
              exact ((hnotify _).seq hrequest) _ tr h
          exact hcompare _ _ _ _ _ tr fun _ => h

theorem handle_started (env : Env) (e : Event) : Leads Started Started (handle env e) := by
  intro s tr h
  cases e with
  | start =>
      unfold handle start
      dsimp only
      split
      · exact h
      · exact requestTemplate_started env .initial _ tr fun _ => rfl
  | timer =>
      unfold handle
      dsimp only
      split
      · exact h
      · exact requestTemplate_started env .timer _ tr h
  | zmqTimer =>
      unfold handle
      dsimp only
      split
      · exact h
      · exact requestHeight_started env _ _ tr h
  | zmq =>
      unfold handle
      dsimp only
      split
      · exact h
      · have hrequest : Leads Started Started (fun s =>
            if s.isShutdown then (s, [])
            else requestHeight env false
              { s with zmqTimer := false, zmqHeightRetries := 0, heightRetryFollowup := false }) :=
          leads_open (fun _ => id) fun s tr _ h =>
            requestHeight_started env false _ tr fun _ => h
        exact ((open_notify env (.notification (s.notificationSequence + 1))).seq hrequest) _ tr h
  | response kind rpcId data => exact onHttpData_started env kind rpcId data s tr h
  | shutdown =>
      intro hopen
      have hopen : (shutdown s).1.isShutdown = false := hopen
      exact absurd (isShutdown_shutdown s) (by simp [hopen])

end Started

section Runs

variable {es : ℕ → Env × Event} {k : ℕ}

/-- A request is in flight from its fetch to the delivery of a response to it. -/
def InFlight (es : ℕ → Env × Event) (kind : RequestKind) (k id : ℕ) : Prop :=
  ∃ i < k, .fetch kind id ∈ machine.emitted es i ∧
    ∀ l, i < l → l < k → ∀ data, (es l).2 ≠ .response kind id data

theorem inFlight_succ {kind : RequestKind} {id : ℕ} : InFlight es kind (k + 1) id ↔
    .fetch kind id ∈ machine.emitted es k ∨
      (InFlight es kind k id ∧ ∀ data, (es k).2 ≠ .response kind id data) := by
  constructor
  · rintro ⟨i, hi, hfetch, hsilent⟩
    rcases Nat.lt_succ_iff_lt_or_eq.mp hi with hi | rfl
    · exact Or.inr ⟨⟨i, hi, hfetch, fun l hil hl => hsilent l hil (by omega)⟩,
        hsilent k hi (Nat.lt_succ_self k)⟩
    · exact Or.inl hfetch
  · rintro (hfetch | ⟨⟨i, hi, hfetch, hsilent⟩, hlast⟩)
    · exact ⟨k, Nat.lt_succ_self k, hfetch, fun l hkl hl => by omega⟩
    · refine ⟨i, by omega, hfetch, fun l hil hl => ?_⟩
      rcases Nat.lt_succ_iff_lt_or_eq.mp hl with hl | rfl
      · exact hsilent l hil hl
      · exact hlast

/-- What is fetched comes to what is outstanding, as long as it is not completed. -/
theorem mem_outstanding_append {kind : RequestKind} {id : ℕ} {tr out : List Output}
    (hout : .completed kind id ∉ out) : id ∈ outstanding kind (tr ++ out) ↔
      .fetch kind id ∈ out ∨ id ∈ outstanding kind tr := by
  induction out generalizing tr with
  | nil => simp
  | cons o rest ih =>
      rw [List.append_cons, ih (fun h => hout (List.mem_cons_of_mem _ h)), List.mem_cons]
      have hne : o ≠ .completed kind id := fun h => hout (h ▸ List.mem_cons_self)
      cases o with
      | fetch kind' id' =>
          rw [outstanding_fetch]
          by_cases hkind : kind' = kind
          · subst hkind
            simp only [if_true, List.mem_cons, Output.fetch.injEq, true_and]
            tauto
          · simp [hkind, Ne.symm hkind]
      | completed kind' id' =>
          rw [outstanding_completed]
          by_cases hkind : kind' = kind
          · subst hkind
            have hid : id ≠ id' := fun h => hne (h ▸ rfl)
            simp [List.mem_erase_of_ne hid]
          · simp [hkind]
      | _ => simp [outstanding, List.foldl_append]

theorem open_of_le {i : ℕ} (hik : i ≤ k) (hopen : (machine.state es k).isShutdown = false) :
    (machine.state es i).isShutdown = false := by
  by_contra hshut
  rw [Bool.not_eq_false] at hshut
  have hstays := Machine.persists (P := fun s : State => s.isShutdown = true) hik hshut
    fun l _ _ h => by
      rw [Machine.state_succ]
      change (handle (es l).1 (es l).2 (machine.state es l)).1.isShutdown = true
      rw [handle_shut _ _ h]
      exact h
  rw [hopen] at hstays
  cases hstays

/-- One step of what is outstanding: it is fetched, or it was outstanding and is not answered. -/
theorem mem_outstanding_succ (hopen : (machine.state es k).isShutdown = false)
    (kind : RequestKind) (id : ℕ) : id ∈ outstanding kind (machine.trace es (k + 1)) ↔
      .fetch kind id ∈ machine.emitted es k ∨
        (id ∈ outstanding kind (machine.trace es k) ∧
          ∀ data, (es k).2 ≠ .response kind id data) := by
  rw [Machine.trace_succ]
  have hemitted : machine.emitted es k = (handle (es k).1 (es k).2 (machine.state es k)).2 := rfl
  have hquiet : (∀ o ∈ machine.emitted es k, ¬ IsCompletion o) →
      (∀ data, (es k).2 ≠ .response kind id data) →
      (id ∈ outstanding kind (machine.trace es k ++ machine.emitted es k) ↔
        .fetch kind id ∈ machine.emitted es k ∨ (id ∈ outstanding kind (machine.trace es k) ∧
          ∀ data, (es k).2 ≠ .response kind id data)) := by
    intro hnone hne
    rw [mem_outstanding_append fun h => hnone _ h trivial, and_iff_left hne]
  cases hevent : (es k).2 with
  | response kind' rpcId data =>
      have hrun : machine.emitted es k =
          (onHttpData (es k).1 kind' rpcId data (machine.state es k)).2 := by
        rw [hemitted, hevent]
        rfl
      by_cases hflight : rpcId ∈ (machine.state es k).inFlight kind'
      · obtain ⟨rest, hout, hrest⟩ := onHttpData_completes (es k).1 data hopen hflight
        rw [hrun, hout, List.append_cons, mem_outstanding_append fun h => hrest _ h trivial,
          outstanding_completed, outstanding_eq_inFlight, List.mem_cons]
        by_cases hkind : kind' = kind
        · subst hkind
          have hone : (machine.state es k).inFlight kind' = [rpcId] := by
            have := length_inFlight_le (machine.state es k) kind'
            match hlist : (machine.state es k).inFlight kind' with
            | [] => simp [hlist] at hflight
            | [id'] => simp_all
            | _ :: _ :: _ => simp [hlist] at this
          simp [hone]
          tauto
        · simp [hkind]
      · have hnone := onHttpData_ignored (es k).1 data hflight
        rw [hrun, hnone, List.append_nil]
        simp only [List.not_mem_nil, false_or]
        refine ⟨fun hid => ⟨hid, ?_⟩, And.left⟩
        rintro data' heq
        obtain ⟨rfl, rfl, -⟩ := Event.response.inj heq
        rw [outstanding_eq_inFlight] at hid
        exact hflight hid
  | _ =>
      rw [← hevent]
      refine hquiet (fun o ho => ?_) (by simp [hevent])
      rw [hemitted] at ho
      exact handle_completesNothing (es k).1 (by simp [hevent]) _ o ho

/-- In an open source the flags tell what is in flight. -/
theorem mem_inFlight_iff (hopen : (machine.state es k).isShutdown = false) (kind : RequestKind)
    (id : ℕ) : id ∈ (machine.state es k).inFlight kind ↔ InFlight es kind k id := by
  rw [← outstanding_eq_inFlight]
  induction k with
  | zero =>
      apply iff_of_false List.not_mem_nil
      rintro ⟨i, hi, -⟩
      exact absurd hi (Nat.not_lt_zero i)
  | succ k ih =>
      have hbefore := open_of_le (Nat.le_succ k) hopen
      rw [mem_outstanding_succ hbefore, inFlight_succ, ih hbefore]

/-- Whatever is in flight was fetched and not completed, also after a shutdown. -/
theorem InFlight.outstanding {kind : RequestKind} {id : ℕ} (h : InFlight es kind k id) :
    id ∈ outstanding kind (machine.trace es k) := by
  induction k with
  | zero =>
      obtain ⟨i, hi, -⟩ := h
      exact absurd hi (Nat.not_lt_zero i)
  | succ k ih =>
      by_cases hshut : (machine.state es k).isShutdown = true
      · have hnone : machine.emitted es k = [] := by
          change (handle (es k).1 (es k).2 (machine.state es k)).2 = []
          rw [handle_shut _ _ hshut]
        rw [inFlight_succ, hnone] at h
        rw [Machine.trace_succ, hnone, List.append_nil]
        rcases h with h | h
        · exact absurd h List.not_mem_nil
        · exact ih h.1
      · rw [mem_outstanding_succ (by simpa using hshut)]
        exact (inFlight_succ.mp h).imp_right fun h => ⟨ih h.1, h.2⟩

theorem templateInFlight_iff (hopen : (machine.state es k).isShutdown = false) :
    (machine.state es k).templateInFlight = true ↔ ∃ id, InFlight es .blockTemplate k id := by
  simp only [← mem_inFlight_iff hopen, State.inFlight]
  split <;> simp_all

theorem heightInFlight_iff (hopen : (machine.state es k).isShutdown = false) :
    (machine.state es k).heightInFlight = true ↔ ∃ id, InFlight es .height k id := by
  simp only [← mem_inFlight_iff hopen, State.inFlight]
  split <;> simp_all

theorem started_of_event {i : ℕ} (hik : i < k) (hstart : (es i).2 = .start)
    (hopen : (machine.state es k).isShutdown = false) : (machine.state es k).started = true := by
  have hfirst : Started (machine.state es (i + 1)) [] := by
    intro hopen
    have hbefore := open_of_le (Nat.le_succ i) hopen
    have hnext : machine.state es (i + 1) = (start (es i).1 (machine.state es i)).1 := by
      change (handle (es i).1 (es i).2 (machine.state es i)).1 = _
      rw [hstart]
      rfl
    rw [hnext] at hopen ⊢
    unfold start at hopen ⊢
    by_cases hs : (machine.state es i).started = true
    · simp [hs]
    · rw [if_neg (by simp [hs, hbefore])] at hopen ⊢
      exact requestTemplate_started (es i).1 .initial _ [] (fun _ => rfl) hopen
  exact Machine.persists (P := fun s : State => Started s [])
    (Nat.succ_le_of_lt hik) hfirst (fun l _ _ h => handle_started (es l).1 (es l).2 _ [] h) hopen

/-- Outputs of a step after its first are no completions. -/
theorem not_completion_of_tail {pre post : List Output} {o : Output}
    (hopen : (machine.state es k).isShutdown = false)
    (hemitted : machine.emitted es k = pre ++ o :: post) : ∀ o' ∈ post, ¬ IsCompletion o' := by
  have hrun : machine.emitted es k = (handle (es k).1 (es k).2 (machine.state es k)).2 := rfl
  have hmem : ∀ o' ∈ post, o' ∈ (machine.emitted es k).tail := by
    intro o' ho'
    rw [hemitted]
    cases pre with
    | nil => exact ho'
    | cons first pre => exact List.mem_append_right _ (List.mem_cons_of_mem _ ho')
  intro o' ho'
  have htail := hmem o' ho'
  cases hevent : (es k).2 with
  | response kind rpcId data =>
      rw [hrun, hevent] at htail
      by_cases hflight : rpcId ∈ (machine.state es k).inFlight kind
      · obtain ⟨rest, hout, hrest⟩ := onHttpData_completes (es k).1 data hopen hflight
        change o' ∈ (onHttpData (es k).1 kind rpcId data (machine.state es k)).2.tail at htail
        rw [hout] at htail
        exact hrest o' htail
      · change o' ∈ (onHttpData (es k).1 kind rpcId data (machine.state es k)).2.tail at htail
        rw [onHttpData_ignored (es k).1 data hflight] at htail
        exact absurd htail List.not_mem_nil
  | _ =>
      rw [hrun] at htail
      exact handle_completesNothing (es k).1 (by simp [hevent]) _ o' (List.mem_of_mem_tail htail)

/-- A completion is made when the response is delivered. -/
theorem response_of_completed {kind : RequestKind} {id : ℕ}
    (hopen : (machine.state es k).isShutdown = false)
    (hmem : .completed kind id ∈ machine.emitted es k) :
    ∃ data, (es k).2 = .response kind id data := by
  have hrun : machine.emitted es k = (handle (es k).1 (es k).2 (machine.state es k)).2 := rfl
  rw [hrun] at hmem
  cases hevent : (es k).2 with
  | response kind' rpcId data =>
      rw [hevent] at hmem
      change _ ∈ (onHttpData (es k).1 kind' rpcId data (machine.state es k)).2 at hmem
      by_cases hflight : rpcId ∈ (machine.state es k).inFlight kind'
      · obtain ⟨rest, hout, hrest⟩ := onHttpData_completes (es k).1 data hopen hflight
        rw [hout] at hmem
        rcases List.mem_cons.mp hmem with heq | hmem
        · obtain ⟨rfl, rfl⟩ := Output.completed.inj heq
          exact ⟨data, rfl⟩
        · exact absurd trivial (hrest _ hmem)
      · rw [onHttpData_ignored (es k).1 data hflight] at hmem
        exact absurd hmem List.not_mem_nil
  | _ => exact absurd trivial (handle_completesNothing (es k).1 (by simp [hevent]) _ _ hmem)

/-- No wake-up is lost: after a notification, and until a height request fetched since then is
answered, a height request is in flight, or a check is pending behind a request in flight, or the
retry timer is armed. -/
theorem notification_not_lost (es : ℕ → Env × Event) (m k : ℕ) (hmk : m < k)
    (hzmq : (es m).2 = .zmq) (hopen : (machine.state es k).isShutdown = false)
    (hunanswered : ∀ i l id data, m ≤ i → i < l → l < k →
      .fetch .height id ∈ machine.emitted es i → (es l).2 ≠ .response .height id data) :
    (∃ id, InFlight es .height k id) ∨
      ((machine.state es k).heightPending = true ∧ ∃ kind id, InFlight es kind k id) ∨
      (machine.state es k).zmqTimer = true := by
  have hopenAt : ∀ i ≤ k, (machine.state es i).isShutdown = false := fun i hi => open_of_le hi hopen
  obtain ⟨n, rest, hnotified⟩ : ∃ n rest, machine.emitted es m = .notification n :: rest := by
    change ∃ n rest, (handle (es m).1 (es m).2 (machine.state es m)).2 = .notification n :: rest
    rw [hzmq]
    unfold handle notifyZmq
    dsimp only
    rw [if_neg (by simp [hopenAt m hmk.le])]
    exact ⟨_, _, rfl⟩
  obtain ⟨later, hlater⟩ : machine.trace es (m + 1) <+: machine.trace es k :=
    machine.trace_mono hmk
  have htrace : machine.trace es k = machine.trace es m ++ .notification n :: (rest ++ later) := by
    rw [← hlater, Machine.trace_succ, hnotified]
    simp
  have hnone : ¬ Answered (rest ++ later) := by
    rintro ⟨id, started, finished, hafter, hdone⟩
    have hsplit : machine.trace es k = (machine.trace es m ++ .notification n :: started) ++
        .fetch .height id :: finished := by
      rw [htrace, hafter]
      simp
    obtain ⟨i, hi, pre, post, more, hemitted, hxs, hys, hmore⟩ := Machine.trace_split machine hsplit
    have hmi : m ≤ i := by
      by_contra hlt
      have hprefix : machine.trace es (i + 1) <+: machine.trace es m :=
        machine.trace_mono (by omega)
      have hlen := hprefix.length_le
      rw [Machine.trace_succ, hemitted, List.length_append] at hlen
      have := congrArg List.length hxs
      simp only [List.length_append, List.length_cons] at this hlen
      omega
    rw [hys] at hdone
    rcases List.mem_append.mp hdone with hdone | hdone
    · exact not_completion_of_tail (hopenAt i hi.le) hemitted _ hdone trivial
    · obtain ⟨l, hil, hlk, hl⟩ := hmore _ hdone
      obtain ⟨data, hresponse⟩ := response_of_completed (hopenAt l hlk.le) hl
      refine hunanswered i l id data hmi hil hlk ?_ hresponse
      rw [hemitted]
      exact List.mem_append_right _ List.mem_cons_self
  rcases notification_carried es k n _ _ hopen htrace hnone with h | ⟨hpending, h⟩ | h
  · exact Or.inl ((heightInFlight_iff hopen).mp h)
  · refine Or.inr (Or.inl ⟨hpending, ?_⟩)
    rcases h with h | h
    · exact ⟨.height, (heightInFlight_iff hopen).mp h⟩
    · exact ⟨.blockTemplate, (templateInFlight_iff hopen).mp h⟩
  · exact Or.inr (Or.inr h)

/-- A template is installed, the second notification comes while the height request of the first is
in flight, and its answer tells of a new tip. -/
def laterNotification : ℕ → Env × Event :=
  follow [({}, .start),
    ({}, .response .blockTemplate 1 { status := 200, body := .ok (.obj [("id", .int 1),
      ("result", .obj [("blocktemplate_blob", .str (String.ofList (List.replicate 40 '0'))),
        ("blockhashing_blob", .str "00"), ("seed_hash", .str "aa"), ("prev_hash", .str "bb"),
        ("difficulty", .int 7), ("height", .int 9), ("reserved_offset", .int 1)])]) }),
    ({}, .zmq), ({}, .zmq),
    ({}, .response .height 2 { status := 200, body := .ok (.obj [("height", .int 10),
      ("hash", .str "cc")]) })] ({}, .start)

theorem notification_not_lost_later :
    (∃ id, InFlight laterNotification .height 5 id) ∨
      ((machine.state laterNotification 5).heightPending = true ∧
        ∃ kind id, InFlight laterNotification kind 5 id) ∨
      (machine.state laterNotification 5).zmqTimer = true := by
  apply notification_not_lost laterNotification 3 5 (by decide) rfl (by decide +kernel)
  intro i l id data hi hil hl hfetch
  obtain ⟨rfl, rfl⟩ : i = 3 ∧ l = 4 := by omega
  have hnone : machine.emitted laterNotification 3 = [.notification 2] := by decide +kernel
  rw [hnone] at hfetch
  simp at hfetch

/-- The source never stalls and applies only its own responses. -/
theorem progress_and_matching (es : ℕ → Env × Event) (k : ℕ) :
    ((machine.state es k).isShutdown = false → (∃ i < k, (es i).2 = .start) →
      (∃ id, InFlight es .blockTemplate k id) ∨ (machine.state es k).timer = true) ∧
    (∀ kind id id', InFlight es kind k id → InFlight es kind k id' → id = id') ∧
    (∀ kind rpcId data, (es k).2 = .response kind rpcId data → ¬ InFlight es kind k rpcId →
      machine.state es (k + 1) = machine.state es k ∧ machine.emitted es k = []) ∧
    (∀ rpcId data snapshot, (machine.state es k).isShutdown = false →
      (es k).2 = .response .blockTemplate rpcId data → InFlight es .blockTemplate k rpcId →
      parseTemplate (es k).1 (machine.state es k) data = .ok snapshot →
        snapshot.generation ∈ generations (machine.emitted es k)) ∧
    ((machine.state es k).isShutdown = false → (machine.state es k).heightPending = true →
      ∃ kind id, InFlight es kind k id) ∧
    (generations (machine.trace es k)).Pairwise (· < ·) := by
  refine ⟨fun hopen hstart => ?_, fun kind id id' h h' => ?_, fun kind rpcId data he hid => ?_,
    fun rpcId data snapshot hopen he hid hparse => ?_, fun hopen hpending => ?_,
    (recorded es k).ascending⟩
  · obtain ⟨i, hik, hstart⟩ := hstart
    rw [← templateInFlight_iff hopen]
    exact alive es k hopen (started_of_event hik hstart hopen)
  · have hmem := h.outstanding
    have hmem' := h'.outstanding
    rw [outstanding_eq_inFlight] at hmem hmem'
    have hone := length_inFlight_le (machine.state es k) kind
    match hlist : (machine.state es k).inFlight kind with
    | [] => simp [hlist] at hmem
    | [only] =>
        rw [hlist, List.mem_singleton] at hmem hmem'
        exact hmem.trans hmem'.symm
    | _ :: _ :: _ => simp [hlist] at hone
  · have hnext : machine.next (machine.state es k) (es k) = (machine.state es k, []) := by
      change handle (es k).1 (es k).2 (machine.state es k) = _
      by_cases hopen : (machine.state es k).isShutdown = false
      · rw [he]
        exact onHttpData_ignored (es k).1 data fun h =>
          hid ((mem_inFlight_iff hopen kind rpcId).mp h)
      · exact handle_shut _ _ (by simpa using hopen)
    exact ⟨by rw [Machine.state_succ, hnext], by rw [Machine.emitted, hnext]⟩
  · have hflight := (mem_inFlight_iff hopen _ _).mpr hid
    have hrun : machine.emitted es k = (install (es k).1 snapshot (machine.state es k)).2 := by
      change (handle (es k).1 (es k).2 (machine.state es k)).2 = _
      rw [he]
      change (onHttpData (es k).1 .blockTemplate rpcId data (machine.state es k)).2 = _
      have hmarked := (templateInFlight_iff hopen).mpr ⟨rpcId, hid⟩
      have hrpc : rpcId = (machine.state es k).templateRequest.requestId := by
        simpa [State.inFlight, hmarked] using hflight
      unfold onHttpData
      rw [if_neg (by simp [hopen])]
      dsimp only
      rw [if_neg (by simp [hmarked, hrpc]), hparse]
    rw [hrun]
    exact List.mem_filterMap.mpr ⟨.snapshot _, List.mem_cons_of_mem _ List.mem_cons_self, rfl⟩
  · rcases (awake es k hopen).2 hpending with h | h
    · exact ⟨.height, (heightInFlight_iff hopen).mp h⟩
    · exact ⟨.blockTemplate, (templateInFlight_iff hopen).mp h⟩

end Runs

end XmrigProxy.DaemonTemplateSource
