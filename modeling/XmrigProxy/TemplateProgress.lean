import XmrigProxy.TemplateWakeups

/-! Requests and answers of the template source. What it believes to be in flight is exactly
what it has fetched and not completed, so a response is applied once and only under its own
id; and between two events a started source waits for a template or for its timer. -/
namespace XmrigProxy.DaemonTemplateSource

open Handler
open DaemonSubmission (HttpData)

/-- The ids fetched and not yet completed. -/
def outstanding (kind : RequestKind) (tr : List Output) : List ℕ :=
  tr.foldl (fun ids o => match o with
    | .fetch k id => if k = kind then id :: ids else ids
    | .completed k id => if k = kind then ids.erase id else ids
    | _ => ids) []

def State.inFlight (s : State) : RequestKind → List ℕ
  | .blockTemplate => if s.templateInFlight then [s.templateRequest.requestId] else []
  | .height => if s.heightInFlight then [s.heightRequest.requestId] else []

/-- The generations of the snapshots shown to the listeners, oldest first. -/
def generations (tr : List Output) : List ℕ :=
  tr.filterMap fun o => match o with
    | .snapshot snapshot => some snapshot.generation
    | _ => none

def IsRoutine : Output → Prop
  | .fetch _ _ => False
  | .completed _ _ => False
  | .snapshot _ => False
  | _ => True

section Bookkeeping

variable {kind : RequestKind} {tr out : List Output} {id : ℕ}

theorem outstanding_fetch (k : RequestKind) (tr : List Output) (id : ℕ) :
    outstanding k (tr ++ [.fetch kind id]) =
      if kind = k then id :: outstanding k tr else outstanding k tr := by
  simp [outstanding, List.foldl_append]

theorem outstanding_completed (k : RequestKind) (tr : List Output) (id : ℕ) :
    outstanding k (tr ++ [.completed kind id]) =
      if kind = k then (outstanding k tr).erase id else outstanding k tr := by
  simp [outstanding, List.foldl_append]

theorem outstanding_snapshot (snapshot : Snapshot) :
    outstanding kind (tr ++ [.snapshot snapshot]) = outstanding kind tr := by
  simp [outstanding, List.foldl_append]

theorem outstanding_routine (hout : ∀ o ∈ out, IsRoutine o) :
    outstanding kind (tr ++ out) = outstanding kind tr := by
  induction out generalizing tr with
  | nil => rw [List.append_nil]
  | cons o rest ih =>
      have ho := hout o List.mem_cons_self
      rw [List.append_cons, ih fun o' ho' => hout o' (List.mem_cons_of_mem _ ho')]
      cases o <;> simp_all [outstanding, List.foldl_append, IsRoutine]

theorem generations_append : generations (tr ++ out) = generations tr ++ generations out :=
  List.filterMap_append

theorem generations_routine (hout : ∀ o ∈ out, IsRoutine o) : generations out = [] := by
  refine List.filterMap_eq_nil_iff.mpr fun o ho => ?_
  have := hout o ho
  cases o <;> first | rfl | exact absurd this not_false

end Bookkeeping

/-- The flags tell what is outstanding, except for a request of kind `sending` that the
listeners hear of before it goes out; and the snapshots are numbered in order. -/
structure Recorded (sending : Option RequestKind) (s : State) (tr : List Output) : Prop where
  tracks : ∀ kind, outstanding kind tr = if sending = some kind then [] else s.inFlight kind
  ascending : (generations tr).Pairwise (· < ·)
  bounded : ∀ g ∈ generations tr, g ≤ s.generation

/-- The request of kind `kind` is marked in flight and not yet fetched. -/
structure Sending (kind : RequestKind) (id : ℕ) (s : State) (tr : List Output) : Prop where
  marked : s.inFlight kind = [id]
  recorded : Recorded (some kind) s tr

section Frames

variable {sending : Option RequestKind} {s s' : State} {tr out : List Output}

theorem Recorded.congr (h : Recorded sending s tr) (hflight : s'.inFlight = s.inFlight)
    (hgeneration : s'.generation = s.generation) (hout : ∀ o ∈ out, IsRoutine o) :
    Recorded sending s' (tr ++ out) where
  tracks := fun kind => by
    rw [outstanding_routine hout, h.tracks kind, hflight]
  ascending := by
    rw [generations_append, generations_routine hout, List.append_nil]
    exact h.ascending
  bounded := by
    rw [generations_append, generations_routine hout, List.append_nil, hgeneration]
    exact h.bounded

theorem Recorded.same (h : Recorded sending s tr) (hflight : s'.inFlight = s.inFlight)
    (hgeneration : s'.generation = s.generation) : Recorded sending s' tr := by
  rw [← List.append_nil tr]
  exact h.congr hflight hgeneration (by simp)

theorem inFlight_shutdown (s : State) : (shutdown s).1.inFlight = s.inFlight := by
  unfold shutdown
  split <;> rfl

theorem generation_shutdown (s : State) : (shutdown s).1.generation = s.generation := by
  unfold shutdown
  split <;> rfl

theorem routine_shutdown (s : State) : ∀ o ∈ (shutdown s).2, IsRoutine o := by
  unfold shutdown
  intro o ho
  split at ho
  · exact absurd ho List.not_mem_nil
  · obtain rfl := List.mem_singleton.mp ho
    exact trivial

theorem recorded_shutdown : Leads (Recorded sending) (Recorded sending) shutdown :=
  fun s _ h => h.congr (inFlight_shutdown s) (generation_shutdown s) (routine_shutdown s)

theorem sending_shutdown {kind : RequestKind} {id : ℕ} :
    Leads (Sending kind id) (Sending kind id) shutdown := by
  intro s tr h
  refine ⟨?_, recorded_shutdown s tr h.recorded⟩
  rw [inFlight_shutdown]
  exact h.marked

end Frames

section Handlers

variable {env : Env} {sending : Option RequestKind}

/-- What the listeners are told is on record before they may shut the source down. -/
theorem leads_notify_of_emit {P Q : State → List Output → Prop} (o : Output)
    (hemit : Leads P Q (emit o)) (hshut : Leads Q Q shutdown) :
    Leads P Q (notify env o) := by
  refine hemit.seq ?_
  split
  · exact hshut
  · exact preserves_skip Q

theorem recorded_emit (o : Output) (ho : IsRoutine o) :
    Leads (Recorded sending) (Recorded sending) (emit o) := by
  intro s tr h
  refine h.congr rfl rfl fun o' ho' => ?_
  obtain rfl := List.mem_singleton.mp ho'
  exact ho

theorem recorded_notify (env : Env) (o : Output) (ho : IsRoutine o) :
    Leads (Recorded sending) (Recorded sending) (notify env o) :=
  leads_notify_of_emit o (recorded_emit o ho) recorded_shutdown

theorem sending_notify {kind : RequestKind} {id : ℕ} (request : RequestMetadata) :
    Leads (Sending kind id) (Sending kind id) (notify env (.request request)) := by
  refine leads_notify_of_emit _ (fun s tr h => ⟨h.marked, ?_⟩) sending_shutdown
  exact recorded_emit (.request request) trivial s tr h.recorded

theorem Sending.fetched {kind : RequestKind} {id : ℕ} {s : State} {tr : List Output}
    (h : Sending kind id s tr) : Recorded none s (tr ++ [.fetch kind id]) where
  tracks := fun k => by
    rw [outstanding_fetch, h.recorded.tracks k]
    by_cases hk : kind = k
    · subst hk
      simp [h.marked]
    · simp [hk]
  ascending := by simpa [generations] using h.recorded.ascending
  bounded := by simpa [generations] using h.recorded.bounded

/-- A request either goes out under the id it was marked with, or is unmarked again. -/
theorem recorded_send {kind : RequestKind} {f : State → State} (request : RequestMetadata)
    (hidle : ∀ s, (f s).inFlight kind = [])
    (hother : ∀ s k, k ≠ kind → (f s).inFlight k = s.inFlight k)
    (hgeneration : ∀ s, (f s).generation = s.generation) :
    Leads (Sending kind request.requestId) (Recorded none)
      (seq (notify env (.request request)) fun s =>
        if s.isShutdown then (f s, []) else (s, [.fetch kind request.requestId])) := by
  refine (sending_notify request).seq fun s tr h => ?_
  split
  · rw [List.append_nil]
    refine ⟨fun k => ?_, h.recorded.ascending, fun g hg => ?_⟩
    · rw [h.recorded.tracks k]
      by_cases hk : k = kind
      · subst hk
        simp [hidle]
      · simp [hother s k hk, Ne.symm hk]
    · rw [hgeneration]
      exact h.recorded.bounded g hg
  · exact h.fetched

theorem requestTemplate_recorded (env : Env) (reason : RefreshReason) :
    Leads (Recorded none) (Recorded none) (requestTemplate env reason) := by
  intro s tr h
  unfold requestTemplate
  split
  · rwa [List.append_nil]
  · by_cases hbusy : s.templateInFlight = true
    · rw [if_pos hbusy, List.append_nil]
      exact h.same rfl rfl
    · rw [if_neg hbusy]
      have hsend : ∀ request : RequestMetadata,
          Leads (Sending .blockTemplate request.requestId) (Recorded none)
            (seq (notify env (.request request)) fun s =>
              if s.isShutdown then ({ s with templateInFlight := false }, [])
              else (s, [.fetch .blockTemplate request.requestId])) := by
        refine fun request => recorded_send request (fun _ => rfl) (fun _ k hk => ?_) fun _ => rfl
        cases k with
        | blockTemplate => exact absurd rfl hk
        | height => rfl
      refine hsend _ _ tr ⟨rfl, fun k => ?_, h.ascending, h.bounded⟩
      have := h.tracks k
      cases k with
      | blockTemplate => simpa [State.inFlight, hbusy] using this
      | height => simpa [State.inFlight] using this

theorem requestHeight_recorded (env : Env) (followup : Bool) :
    Leads (Recorded none) (Recorded none) (requestHeight env followup) := by
  intro s tr h
  unfold requestHeight
  split
  · rwa [List.append_nil]
  · by_cases hbusy : (s.heightInFlight || s.templateInFlight) = true
    · rw [if_pos hbusy, List.append_nil]
      exact h.same rfl rfl
    · rw [if_neg hbusy]
      have hidle : s.heightInFlight = false := by
        simp only [Bool.or_eq_true, not_or] at hbusy
        exact Bool.eq_false_of_not_eq_true hbusy.1
      have hsend : ∀ request : RequestMetadata,
          Leads (Sending .height request.requestId) (Recorded none)
            (seq (notify env (.request request)) fun s =>
              if s.isShutdown then ({ s with heightInFlight := false, heightFollowup := false }, [])
              else (s, [.fetch .height request.requestId])) := by
        refine fun request => recorded_send request (fun _ => rfl) (fun _ k hk => ?_) fun _ => rfl
        cases k with
        | blockTemplate => rfl
        | height => exact absurd rfl hk
      refine hsend _ _ tr ⟨rfl, fun k => ?_, h.ascending, h.bounded⟩
      have := h.tracks k
      cases k with
      | blockTemplate => simpa [State.inFlight] using this
      | height => simpa [State.inFlight, hidle] using this

theorem drainTemplateQueue_recorded (env : Env) :
    Leads (Recorded none) (Recorded none) (drainTemplateQueue env) := by
  intro s tr h
  unfold drainTemplateQueue
  split
  · rwa [List.append_nil]
  · dsimp only
    split
    · rw [List.append_nil]
      exact h.same rfl rfl
    · exact requestTemplate_recorded env _ _ tr (h.same rfl rfl)

theorem drainHeightQueue_recorded (env : Env) (coveredByTemplate : Bool) :
    Leads (Recorded none) (Recorded none) (drainHeightQueue env coveredByTemplate) := by
  intro s tr h
  unfold drainHeightQueue
  split
  · rwa [List.append_nil]
  · exact requestHeight_recorded env _ _ tr (h.same rfl rfl)

/-- The request of this kind is complete, and its flag is down. -/
theorem Recorded.complete {kind : RequestKind} {id : ℕ} {s s' : State} {tr : List Output}
    (h : Recorded none s tr) (hflight : s.inFlight kind = [id]) (hidle : s'.inFlight kind = [])
    (hother : ∀ k, k ≠ kind → s'.inFlight k = s.inFlight k)
    (hgeneration : s.generation ≤ s'.generation) :
    Recorded none s' (tr ++ [.completed kind id]) where
  tracks := fun k => by
    rw [outstanding_completed, h.tracks k]
    by_cases hk : k = kind
    · subst hk
      simp [hflight, hidle]
    · simp [Ne.symm hk, hother k hk]
  ascending := by simpa [generations] using h.ascending
  bounded := fun g hg => by
    refine (h.bounded g ?_).trans hgeneration
    simpa [generations] using hg

theorem failTemplate_recorded (env : Env) (message : String) (s : State) (tr : List Output)
    (h : Recorded none s tr) (hflight : s.templateInFlight = true) :
    Recorded none (failTemplate env message s).1 (tr ++ (failTemplate env message s).2) := by
  have htimer : Leads (Recorded none) (Recorded none) (fun s : State =>
      (if !s.isShutdown && !s.templateInFlight && !s.templatePending then
        { s with timer := true } else s, ([] : List Output))) := by
    intro s tr h
    rw [List.append_nil]
    dsimp only
    split
    · exact h.same rfl rfl
    · exact h
  have hrun := (leads_emit (.completed .blockTemplate s.templateRequest.requestId)).seq <|
    (recorded_notify env (.error s.templateRequest message) trivial).seq <|
      (drainTemplateQueue_recorded env).seq <|
        (drainHeightQueue_recorded env false).seq htimer
  refine hrun _ tr (h.complete ?_ rfl (fun k hk => ?_) le_rfl)
  · simp [State.inFlight, hflight]
  · cases k with
    | blockTemplate => exact absurd rfl hk
    | height => rfl

theorem failHeight_recorded (env : Env) (message : String) (s : State) (tr : List Output)
    (h : Recorded none s tr) (hflight : s.heightInFlight = true) :
    Recorded none (failHeight env message s).1 (tr ++ (failHeight env message s).2) := by
  have hretry : ∀ followup, Leads (Recorded none) (Recorded none) (fun s : State =>
      let s := { s with heightPending := false }
      if s.isShutdown then (s, [])
      else if s.zmqHeightRetries + 1 ≤ kMaxZmqHeightRetries then
        ({ s with
            zmqHeightRetries := s.zmqHeightRetries + 1
            heightRetryFollowup := followup
            zmqTimer := true }, ([] : List Output))
      else ({ s with zmqHeightRetries := 0, heightRetryFollowup := false }, [])) := by
    intro followup s tr h
    dsimp only
    split
    · exact h.congr rfl rfl (by simp)
    · split
      · exact h.congr rfl rfl (by simp)
      · exact h.congr rfl rfl (by simp)
  have hrun := (leads_emit (.completed .height s.heightRequest.requestId)).seq <|
    (recorded_notify env (.error s.heightRequest message) trivial).seq
      (hretry s.heightFollowup)
  refine hrun _ tr (h.complete ?_ rfl (fun k hk => ?_) le_rfl)
  · simp [State.inFlight, hflight]
  · cases k with
    | blockTemplate => rfl
    | height => exact absurd rfl hk

/-- A new snapshot is numbered above all those shown before it. -/
theorem install_recorded (env : Env) (snapshot : Snapshot) (s : State) (tr : List Output)
    (h : Recorded none s tr) (hflight : s.templateInFlight = true)
    (hgeneration : snapshot.generation = s.generation + 1) :
    Recorded none (install env snapshot s).1 (tr ++ (install env snapshot s).2) := by
  have hsnapshot : ∀ snapshot : Snapshot, Leads
      (fun s tr => Recorded none s tr ∧ s.generation = snapshot.generation ∧
        ∀ g ∈ generations tr, g < snapshot.generation) (Recorded none)
      (notify env (.snapshot snapshot)) := by
    refine fun snapshot => leads_notify_of_emit _ (fun s tr h => ?_) recorded_shutdown
    obtain ⟨h, hs, hlt⟩ := h
    have happend : generations (tr ++ [.snapshot snapshot]) =
        generations tr ++ [snapshot.generation] := by
      rw [generations_append]
      rfl
    refine ⟨fun k => ?_, ?_, fun g hg => ?_⟩
    · change outstanding k (tr ++ [.snapshot snapshot]) = _
      rw [outstanding_snapshot]
      exact h.tracks k
    · change (generations (tr ++ [.snapshot snapshot])).Pairwise (· < ·)
      rw [happend]
      refine List.pairwise_append.mpr ⟨h.ascending, List.pairwise_singleton _ _, ?_⟩
      intro g hg g' hg'
      rw [List.mem_singleton.mp hg']
      exact hlt g hg
    · change g ∈ generations (tr ++ [.snapshot snapshot]) at hg
      change g ≤ s.generation
      rw [happend, List.mem_append, List.mem_singleton] at hg
      rcases hg with hg | rfl
      · exact h.bounded g hg
      · exact hs.ge
  have hobserve : ∀ height : ℕ, Leads (Recorded none) (Recorded none)
      (fun s => (s, if s.isShutdown then [] else [.observeHeight height])) := by
    intro height s tr h
    refine h.congr rfl rfl fun o ho => ?_
    dsimp only at ho
    split at ho
    · exact absurd ho List.not_mem_nil
    · obtain rfl := List.mem_singleton.mp ho
      exact trivial
  have hrun := fun snapshot : Snapshot => fun advanced =>
    (leads_emit (.completed .blockTemplate s.templateRequest.requestId)).seq <|
      (hsnapshot snapshot).seq <| (hobserve snapshot.height).seq <|
        (drainTemplateQueue_recorded env).seq (drainHeightQueue_recorded env advanced)
  refine hrun _ _ _ tr ⟨h.complete ?_ rfl (fun k hk => ?_) ?_, rfl, fun g hg => ?_⟩
  · simp [State.inFlight, hflight]
  · cases k with
    | blockTemplate => exact absurd rfl hk
    | height => rfl
  · exact hgeneration ▸ Nat.le_succ s.generation
  · have hg : g ∈ generations tr := by simpa [generations] using hg
    have := h.bounded g hg
    dsimp only
    omega

theorem inFlight_sameTip (followup pending : Bool) (s : State) :
    (sameTip followup pending s).inFlight = s.inFlight ∧
      (sameTip followup pending s).generation = s.generation := by
  unfold sameTip
  dsimp only
  split
  · split <;> exact ⟨rfl, rfl⟩
  · split <;> exact ⟨rfl, rfl⟩

theorem compareHeight_recorded (env : Env) (height : ℕ) (hash : String) (s : State)
    (tr : List Output) (h : Recorded none s tr) (hflight : s.heightInFlight = true) :
    Recorded none (compareHeight env height hash s).1
      (tr ++ (compareHeight env height hash s).2) := by
  have htip : ∀ pending, Leads (Recorded none) (Recorded none)
      (newTip env pending height hash) := by
    intro pending s tr h
    have hrequest : Leads (Recorded none) (Recorded none)
        (fun s => requestTemplate env .zmq { s with heightPending := pending }) :=
      fun s tr h => requestTemplate_recorded env .zmq _ tr (h.same rfl rfl)
    exact ((recorded_notify env (.tipChanged height hash) trivial).seq hrequest)
      _ tr (h.same rfl rfl)
  have hcompare : ∀ followup pending, Leads (Recorded none) (Recorded none)
      (fun s => if s.latest.any fun latest => hash = latest.prevHash then
        (sameTip followup pending s, []) else newTip env pending height hash s) := by
    intro followup pending s tr h
    dsimp only
    split
    · obtain ⟨hinFlight, hgeneration⟩ := inFlight_sameTip followup pending s
      exact h.congr hinFlight hgeneration (by simp)
    · exact htip pending s tr h
  have hrun := (leads_emit (.completed .height s.heightRequest.requestId)).seq
    (hcompare s.heightFollowup s.heightPending)
  refine hrun _ tr (h.complete ?_ rfl (fun k hk => ?_) le_rfl)
  · simp [State.inFlight, hflight]
  · cases k with
    | blockTemplate => rfl
    | height => exact absurd rfl hk

theorem generation_parseTemplate {s : State} {data : HttpData} {snapshot : Snapshot}
    (h : parseTemplate env s data = .ok snapshot) : snapshot.generation = s.generation + 1 := by
  unfold parseTemplate at h
  split at h
  · cases h
  · split at h
    · cases h
    · dsimp only at h
      split at h
      · cases h
      · split at h
        · cases h
        · split at h
          · cases h
          · split at h
            · cases h
            · cases h
              rfl

theorem onHttpData_recorded (env : Env) (kind : RequestKind) (rpcId : ℕ) (data : HttpData) :
    Leads (Recorded none) (Recorded none) (onHttpData env kind rpcId data) := by
  intro s tr h
  unfold onHttpData
  split
  · rwa [List.append_nil]
  · cases kind with
    | blockTemplate =>
        dsimp only
        split
        · rwa [List.append_nil]
        · next haccepted =>
          have hflight : s.templateInFlight = true := by
            simp only [Bool.or_eq_true, Bool.not_eq_true', not_or] at haccepted
            simpa using haccepted.1
          split
          · exact failTemplate_recorded env _ s tr h hflight
          · next snapshot hparse =>
            exact install_recorded env snapshot s tr h hflight (generation_parseTemplate hparse)
    | height =>
        dsimp only
        split
        · rwa [List.append_nil]
        · next haccepted =>
          have hflight : s.heightInFlight = true := by
            simp only [Bool.or_eq_true, Bool.not_eq_true', not_or] at haccepted
            simpa using haccepted.1
          split
          · exact failHeight_recorded env _ s tr h hflight
          · exact compareHeight_recorded env _ _ s tr h hflight

theorem handle_recorded (env : Env) (e : Event) :
    Leads (Recorded none) (Recorded none) (handle env e) := by
  intro s tr h
  cases e with
  | start =>
      unfold handle start
      dsimp only
      split
      · rwa [List.append_nil]
      · exact requestTemplate_recorded env .initial _ tr (h.same rfl rfl)
  | timer =>
      unfold handle
      dsimp only
      split
      · rwa [List.append_nil]
      · exact requestTemplate_recorded env .timer _ tr (h.same rfl rfl)
  | zmqTimer =>
      unfold handle
      dsimp only
      split
      · rwa [List.append_nil]
      · exact requestHeight_recorded env _ _ tr (h.same rfl rfl)
  | zmq =>
      unfold handle
      dsimp only
      split
      · rwa [List.append_nil]
      · have hrequest : Leads (Recorded none) (Recorded none) (fun s =>
            if s.isShutdown then (s, [])
            else requestHeight env false
              { s with
                zmqTimer := false, zmqHeightRetries := 0, heightRetryFollowup := false }) := by
          intro s tr h
          dsimp only
          split
          · rwa [List.append_nil]
          · exact requestHeight_recorded env false _ tr (h.same rfl rfl)
        have hrun := (recorded_notify env (.notification (s.notificationSequence + 1))
          trivial).seq hrequest
        exact hrun _ tr (h.same rfl rfl)
  | response kind rpcId data => exact onHttpData_recorded env kind rpcId data s tr h
  | shutdown => exact recorded_shutdown s tr h

end Handlers

section Progress

/-- A started source waits for a template or for its timer. -/
def Alive : State → List Output → Prop :=
  WhileOpen fun s _ => s.started = true → s.templateInFlight = true ∨ s.timer = true

/-- The source has settled what to do about templates. -/
def Drained : State → List Output → Prop :=
  WhileOpen fun s _ => s.templatePending = true → s.templateInFlight = true

theorem open_notify {P : State → Prop} (env : Env) (o : Output) :
    Leads (WhileOpen fun s _ => P s) (WhileOpen fun s _ => P s) (notify env o) := by
  intro s tr h hopen
  rcases state_notify env o s with hs | hs
  · rw [hs] at hopen ⊢
    exact h hopen
  · exact absurd hs (by simp [hopen])

theorem requestTemplate_inFlight (env : Env) (reason : RefreshReason) :
    Leads (fun _ _ => True) (WhileOpen fun s _ => s.templateInFlight = true)
      (requestTemplate env reason) := by
  intro s tr _
  unfold requestTemplate
  split
  · next hs => exact fun hopen => absurd hs (by rw [hopen]; exact Bool.false_ne_true)
  · by_cases hbusy : s.templateInFlight = true
    · rw [if_pos hbusy]
      exact fun _ => hbusy
    · rw [if_neg hbusy]
      have hsend : ∀ request : RequestMetadata,
          Leads (WhileOpen fun s _ => s.templateInFlight = true)
            (WhileOpen fun s _ => s.templateInFlight = true)
            (seq (notify env (.request request)) fun s =>
              if s.isShutdown then ({ s with templateInFlight := false }, [])
              else (s, [.fetch .blockTemplate request.requestId])) :=
        fun request => (open_notify env (.request request)).seq
          (leads_open (fun _ => id) fun s tr hs h _ => h)
      exact hsend _ _ tr fun _ => rfl

/-- A height request leaves alone what is known of templates. -/
structure SameTemplates (s s' : State) : Prop where
  inFlight : s'.templateInFlight = s.templateInFlight
  pending : s'.templatePending = s.templatePending
  timer : s'.timer = s.timer
  started : s'.started = s.started

theorem requestHeight_templates (env : Env) (followup : Bool) (s : State)
    (hopen : (requestHeight env followup s).1.isShutdown = false) :
    SameTemplates s (requestHeight env followup s).1 ∧ s.isShutdown = false := by
  unfold requestHeight at hopen ⊢
  by_cases hs : s.isShutdown = true
  · rw [if_pos hs] at hopen
    have hopen : s.isShutdown = false := hopen
    exact absurd hs (by simp [hopen])
  · rw [if_neg hs] at hopen ⊢
    refine ⟨?_, Bool.eq_false_of_not_eq_true hs⟩
    by_cases hbusy : (s.heightInFlight || s.templateInFlight) = true
    · rw [if_pos hbusy]
      exact ⟨rfl, rfl, rfl, rfl⟩
    · rw [if_neg hbusy] at hopen ⊢
      have hsend : ∀ request : RequestMetadata,
          Leads (WhileOpen fun t _ => SameTemplates s t) (WhileOpen fun t _ => SameTemplates s t)
            (seq (notify env (.request request)) fun s =>
              if s.isShutdown then ({ s with heightInFlight := false, heightFollowup := false }, [])
              else (s, [.fetch .height request.requestId])) :=
        fun request => (open_notify env (.request request)).seq
          (leads_open (fun _ => id) fun s tr hs h _ => h)
      exact hsend _ _ [] (fun _ => ⟨rfl, rfl, rfl, rfl⟩) hopen

theorem templates_requestHeight {P : State → List Output → Prop} (env : Env) (followup : Bool)
    (hP : ∀ s s' tr tr', SameTemplates s s' → P s tr → P s' tr') :
    Leads (WhileOpen P) (WhileOpen P) (requestHeight env followup) := by
  intro s tr h hopen
  obtain ⟨hsame, hs⟩ := requestHeight_templates env followup s hopen
  exact hP _ _ _ _ hsame (h hs)

theorem templates_drainHeightQueue {P : State → List Output → Prop} (env : Env) (covered : Bool)
    (hP : ∀ s s' tr tr', SameTemplates s s' → P s tr → P s' tr') :
    Leads (WhileOpen P) (WhileOpen P) (drainHeightQueue env covered) := by
  intro s tr h
  unfold drainHeightQueue
  split
  · rwa [List.append_nil]
  · exact templates_requestHeight env covered hP _ tr
      fun hopen => hP s _ tr tr ⟨rfl, rfl, rfl, rfl⟩ (h hopen)

theorem alive_of_same {s s' : State} (hsame : SameTemplates s s')
    (h : s.started = true → s.templateInFlight = true ∨ s.timer = true) :
    s'.started = true → s'.templateInFlight = true ∨ s'.timer = true := by
  rw [hsame.started, hsame.inFlight, hsame.timer]
  exact h

theorem drained_of_same {s s' : State} (hsame : SameTemplates s s')
    (h : s.templatePending = true → s.templateInFlight = true) :
    s'.templatePending = true → s'.templateInFlight = true := by
  rw [hsame.pending, hsame.inFlight]
  exact h

theorem drainTemplateQueue_drained (env : Env) :
    Leads (fun _ _ => True) Drained (drainTemplateQueue env) := by
  intro s tr _
  unfold drainTemplateQueue
  by_cases hskip : (s.isShutdown || !s.templatePending || s.templateInFlight) = true
  · rw [if_pos hskip]
    intro hopen hpending
    have hopen : s.isShutdown = false := hopen
    have hpending : s.templatePending = true := hpending
    simpa [hopen, hpending] using hskip
  · rw [if_neg hskip]
    dsimp only
    split
    · exact fun _ hpending => absurd hpending Bool.false_ne_true
    · intro hopen _
      exact requestTemplate_inFlight env _ _ tr trivial hopen

theorem drainTemplateQueue_alive (env : Env) : Leads Alive Alive (drainTemplateQueue env) := by
  intro s tr h
  unfold drainTemplateQueue
  split
  · rwa [List.append_nil]
  · dsimp only
    split
    · exact h
    · intro hopen _
      exact Or.inl (requestTemplate_inFlight env _ _ tr trivial hopen)

/-- A failed template is retried at once or by the timer. -/
theorem failTemplate_alive (env : Env) (message : String) :
    Leads (fun _ _ => True) Alive (failTemplate env message) := by
  intro s tr _
  have htimer : Leads Drained Alive (fun s : State =>
      (if !s.isShutdown && !s.templateInFlight && !s.templatePending then
        { s with timer := true } else s, ([] : List Output))) := by
    intro s tr h
    dsimp only
    split
    · exact fun _ _ => Or.inr rfl
    · next hrearm =>
      intro hopen _
      have hopen : s.isShutdown = false := hopen
      by_contra hidle
      have hidle : s.templateInFlight = false ∧ s.timer = false := by simpa using hidle
      have hpending : s.templatePending = true := by
        simpa [hopen, hidle.1] using hrearm
      exact absurd (h hopen hpending) (by simp [hidle.1])
  have hstart : ∀ o : Output, Leads (fun _ _ => True) (fun _ _ => True) (notify env o) :=
    fun _ _ _ _ => trivial
  have hrun := (hstart (.error s.templateRequest message)).seq <|
    (drainTemplateQueue_drained env).seq <|
      (templates_drainHeightQueue env false fun _ _ _ _ hsame h => drained_of_same hsame h).seq
        htimer
  exact hrun _ tr trivial

theorem install_alive (env : Env) (snapshot : Snapshot) :
    Leads (fun _ _ => True) Alive (install env snapshot) := by
  intro s tr _
  have hobserve : ∀ height : ℕ, Leads Alive Alive
      (fun s => (s, if s.isShutdown then [] else [.observeHeight height])) := fun _ _ _ h => h
  have hrun := fun snapshot : Snapshot => fun advanced =>
    (open_notify env (.snapshot snapshot)).seq <| (hobserve snapshot.height).seq <|
      (drainTemplateQueue_alive env).seq <|
        templates_drainHeightQueue env advanced fun _ _ _ _ hsame h => alive_of_same hsame h
  exact hrun _ _ _ tr fun _ _ => Or.inr rfl

theorem failHeight_alive (env : Env) (message : String) :
    Leads Alive Alive (failHeight env message) := by
  intro s tr h
  have hretry : ∀ followup, Leads Alive Alive (fun s : State =>
      let s := { s with heightPending := false }
      if s.isShutdown then (s, [])
      else if s.zmqHeightRetries + 1 ≤ kMaxZmqHeightRetries then
        ({ s with
            zmqHeightRetries := s.zmqHeightRetries + 1
            heightRetryFollowup := followup
            zmqTimer := true }, ([] : List Output))
      else ({ s with zmqHeightRetries := 0, heightRetryFollowup := false }, [])) := by
    intro followup s tr h
    dsimp only
    split
    · exact h
    · split
      · exact h
      · exact h
  exact ((open_notify env (.error s.heightRequest message)).seq (hretry s.heightFollowup)) _ tr h

theorem sameTip_templates (followup pending : Bool) (s : State) :
    SameTemplates s (sameTip followup pending s) := by
  unfold sameTip
  split
  · dsimp only
    split <;> exact ⟨rfl, rfl, rfl, rfl⟩
  · split <;> exact ⟨rfl, rfl, rfl, rfl⟩

theorem compareHeight_alive (env : Env) (height : ℕ) (hash : String) :
    Leads Alive Alive (compareHeight env height hash) := by
  intro s tr h
  have hcompare : ∀ followup pending, Leads Alive Alive
      (fun s => if s.latest.any fun latest => hash = latest.prevHash then
        (sameTip followup pending s, []) else newTip env pending height hash s) := by
    intro followup pending s tr h
    dsimp only
    split
    · intro hopen
      rw [isShutdown_sameTip] at hopen
      exact alive_of_same (sameTip_templates followup pending s) (h hopen)
    · have hstart : Leads (fun _ _ => True) (fun _ _ => True)
          (notify env (.tipChanged height hash)) := fun _ _ _ => trivial
      have hrequest : Leads (fun _ _ => True) Alive
          (fun s => requestTemplate env .zmq { s with heightPending := pending }) :=
        fun s tr _ hopen _ => Or.inl (requestTemplate_inFlight env .zmq _ tr trivial hopen)
      exact (hstart.seq hrequest) _ tr trivial
  exact hcompare s.heightFollowup s.heightPending _ tr h

theorem handle_alive (env : Env) (e : Event) : Leads Alive Alive (handle env e) := by
  intro s tr h
  cases e with
  | start =>
      unfold handle start
      dsimp only
      split
      · rwa [List.append_nil]
      · exact fun hopen _ => Or.inl (requestTemplate_inFlight env .initial _ tr trivial hopen)
  | timer =>
      unfold handle
      dsimp only
      split
      · rwa [List.append_nil]
      · exact fun hopen _ => Or.inl (requestTemplate_inFlight env .timer _ tr trivial hopen)
  | zmqTimer =>
      unfold handle
      dsimp only
      split
      · rwa [List.append_nil]
      · exact templates_requestHeight env _ (fun _ _ _ _ hsame h => alive_of_same hsame h) _ tr h
  | zmq =>
      unfold handle
      dsimp only
      split
      · rwa [List.append_nil]
      · have hrequest : Leads Alive Alive (fun s =>
            if s.isShutdown then (s, [])
            else requestHeight env false
              { s with
                zmqTimer := false, zmqHeightRetries := 0, heightRetryFollowup := false }) := by
          intro s tr h
          dsimp only
          split
          · rwa [List.append_nil]
          · exact templates_requestHeight env false (fun _ _ _ _ hsame h => alive_of_same hsame h)
              _ tr h
        exact ((open_notify env (.notification (s.notificationSequence + 1))).seq hrequest) _ tr h
  | response kind rpcId data =>
      unfold handle onHttpData
      dsimp only
      split
      · rwa [List.append_nil]
      · cases kind with
        | blockTemplate =>
            dsimp only
            split
            · rwa [List.append_nil]
            · split
              · exact failTemplate_alive env _ s tr trivial
              · exact install_alive env _ s tr trivial
        | height =>
            dsimp only
            split
            · rwa [List.append_nil]
            · split
              · exact failHeight_alive env _ s tr h
              · exact compareHeight_alive env _ _ s tr h
  | shutdown =>
      intro hopen
      have hopen : (shutdown s).1.isShutdown = false := hopen
      exact absurd (isShutdown_shutdown s) (by simp [hopen])

end Progress

section Runs

variable {es : ℕ → Env × Event}

theorem alive (es : ℕ → Env × Event) (k : ℕ) : Alive (machine.state es k) (machine.trace es k) :=
  Machine.invariant_trace (fun _ h => absurd h Bool.false_ne_true)
    (fun s tr e => handle_alive e.1 e.2 s tr) k

theorem recorded (es : ℕ → Env × Event) (k : ℕ) :
    Recorded none (machine.state es k) (machine.trace es k) := by
  have h0 : Recorded none machine.init [] := by
    refine ⟨fun kind => ?_, List.Pairwise.nil, fun g hg => absurd hg List.not_mem_nil⟩
    cases kind <;> rfl
  exact Machine.invariant_trace h0 (fun s tr e => handle_recorded e.1 e.2 s tr) k

theorem length_inFlight_le (s : State) (kind : RequestKind) : (s.inFlight kind).length ≤ 1 := by
  unfold State.inFlight
  cases kind <;> dsimp only <;> split <;> simp

/-- A response that answers nothing outstanding of its kind is ignored. -/
theorem onHttpData_ignored (env : Env) {kind : RequestKind} {rpcId : ℕ} (data : HttpData)
    {s : State} (h : rpcId ∉ s.inFlight kind) : onHttpData env kind rpcId data s = (s, []) := by
  unfold onHttpData
  split
  · rfl
  · cases kind with
    | blockTemplate =>
        apply if_pos
        by_contra haccepted
        simp only [Bool.or_eq_true, Bool.not_eq_true', not_or] at haccepted
        have hflight : s.templateInFlight = true := by simpa using haccepted.1
        exact h (by simpa [State.inFlight, hflight] using haccepted.2)
    | height =>
        apply if_pos
        by_contra haccepted
        simp only [Bool.or_eq_true, Bool.not_eq_true', not_or] at haccepted
        have hflight : s.heightInFlight = true := by simpa using haccepted.1
        exact h (by simpa [State.inFlight, hflight] using haccepted.2)

theorem outstanding_eq_inFlight (es : ℕ → Env × Event) (k : ℕ) (kind : RequestKind) :
    outstanding kind (machine.trace es k) = (machine.state es k).inFlight kind := by
  have := (recorded es k).tracks kind
  simpa using this

end Runs

end XmrigProxy.DaemonTemplateSource
