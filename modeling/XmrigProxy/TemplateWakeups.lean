import XmrigProxy.DaemonTemplateSource

/-! A notified block is never forgotten. What a notification still owes is carried by a height
request started after it, by a pending check, or by the retry timer, and every handler hands
the debt on. -/
namespace XmrigProxy.DaemonTemplateSource

open Handler
open DaemonSubmission (HttpData)

def IsNotification : Output → Prop
  | .notification _ => True
  | _ => False

/-- A height request was started and completed. -/
def Answered (later : List Output) : Prop :=
  ∃ id before after, later = before ++ .fetch .height id :: after ∧
    .completed .height id ∈ after

/-- What still stands for a notification with `later` observed after it. -/
def Covered (s : State) (later : List Output) : Prop :=
  Answered later ∨ s.heightPending = true ∨ s.zmqTimer = true ∨
    (s.heightInFlight = true ∧ .fetch .height s.heightRequest.requestId ∈ later)

structure Waking (s : State) (tr : List Output) : Prop where
  exclusive : s.zmqTimer = true → s.heightInFlight = false ∧ s.heightPending = false
  calm : s.heightPending = true → s.heightInFlight = true → s.zmqHeightRetries = 0
  covered : Since IsNotification (Covered s) tr

def Busy (s : State) : Prop :=
  s.heightPending = true → s.heightInFlight = true ∨ s.templateInFlight = true

def WhileOpen (P : State → List Output → Prop) (s : State) (tr : List Output) : Prop :=
  s.isShutdown = false → P s tr

/-- Between two events: what is pending waits for a request in flight. -/
def Awake : State → List Output → Prop := WhileOpen fun s tr => Waking s tr ∧ Busy s

/-- The height request has just completed; `pending` is the check recorded meanwhile. -/
structure Finished (pending : Bool) (s : State) (tr : List Output) : Prop where
  idle : s.heightInFlight = false
  stopped : s.zmqTimer = false
  calm : pending = true → s.zmqHeightRetries = 0
  covered : Since IsNotification (fun later => Answered later ∨ pending = true) tr

theorem Answered.append {later : List Output} (h : Answered later) (out : List Output) :
    Answered (later ++ out) := by
  obtain ⟨id, before, after, rfl, hid⟩ := h
  exact ⟨id, before, after ++ out, by simp, by simp [hid]⟩

theorem answered_of_mem {later out : List Output} {id : ℕ} (hfetch : .fetch .height id ∈ later)
    (hdone : .completed .height id ∈ out) : Answered (later ++ out) := by
  obtain ⟨before, after, rfl⟩ := List.append_of_mem hfetch
  exact ⟨id, before, after ++ out, by simp, by simp [hdone]⟩

theorem Covered.append {s : State} {later : List Output} (h : Covered s later)
    (out : List Output) : Covered s (later ++ out) := by
  rcases h with h | h | h | ⟨hflight, h⟩
  · exact Or.inl (h.append out)
  · exact Or.inr (Or.inl h)
  · exact Or.inr (Or.inr (Or.inl h))
  · exact Or.inr (Or.inr (Or.inr ⟨hflight, List.mem_append_left _ h⟩))

section Quiet

/-- The two states owe the same heights. -/
structure SameHeights (s s' : State) : Prop where
  inFlight : s'.heightInFlight = s.heightInFlight
  pending : s'.heightPending = s.heightPending
  timer : s'.zmqTimer = s.zmqTimer
  retries : s'.zmqHeightRetries = s.zmqHeightRetries
  request : s'.heightRequest = s.heightRequest

variable {s s' : State} {tr out : List Output}

theorem Waking.congr (h : Waking s tr) (hs : SameHeights s s')
    (hout : ∀ o ∈ out, ¬ IsNotification o) : Waking s' (tr ++ out) where
  exclusive := by
    rw [hs.timer, hs.inFlight, hs.pending]
    exact h.exclusive
  calm := by
    rw [hs.pending, hs.inFlight, hs.retries]
    exact h.calm
  covered := by
    refine h.covered.append hout fun later hlater => ?_
    have := hlater.append out
    simpa only [Covered, hs.pending, hs.timer, hs.inFlight, hs.request] using this

theorem Waking.same (h : Waking s tr) (hs : SameHeights s s') : Waking s' tr := by
  rw [← List.append_nil tr]
  exact h.congr hs (by simp)

theorem Finished.congr {pending : Bool} (h : Finished pending s tr) (hs : SameHeights s s')
    (hout : ∀ o ∈ out, ¬ IsNotification o) : Finished pending s' (tr ++ out) where
  idle := hs.inFlight.trans h.idle
  stopped := hs.timer.trans h.stopped
  calm := fun hp => hs.retries.trans (h.calm hp)
  covered := by
    refine h.covered.append hout fun later hlater => ?_
    exact hlater.imp (fun ha => ha.append out) id

end Quiet

section Handlers

variable {env : Env} {o : Output} {s : State}

theorem isShutdown_shutdown (s : State) : (shutdown s).1.isShutdown = true := by
  unfold shutdown
  split
  · assumption
  · rfl

theorem emitted_notify (env : Env) (o : Output) (s : State) :
    (notify env o s).2 = [o] ∨
      (notify env o s).2 = [o, .removeSource] := by
  unfold notify seq emit shutdown skip
  dsimp only
  split
  · dsimp only
    split
    · exact Or.inl rfl
    · exact Or.inr rfl
  · exact Or.inl rfl

/-- A listener leaves the source as it is, or shuts it down. -/
theorem state_notify (env : Env) (o : Output) (s : State) :
    (notify env o s).1 = s ∨ (notify env o s).1.isShutdown = true := by
  unfold notify seq emit
  dsimp only
  by_cases h : env.shutsDown o = true
  · rw [if_pos h]
    exact Or.inr (isShutdown_shutdown s)
  · rw [if_neg h]
    exact Or.inl rfl

theorem quiet_notify (ho : ¬ IsNotification o) (s : State) :
    ∀ o' ∈ (notify env o s).2, ¬ IsNotification o' := by
  intro o' ho'
  rcases emitted_notify env o s with h | h <;> rw [h] at ho'
  · obtain rfl := List.mem_singleton.mp ho'
    exact ho
  · rcases List.mem_cons.mp ho' with rfl | ho'
    · exact ho
    · obtain rfl := List.mem_singleton.mp ho'
      exact not_false

/-- Whatever holds unless the source is shut down survives what the listeners do. -/
theorem leads_notify {P : State → List Output → Prop} {Q : State → List Output → Prop}
    (ho : ¬ IsNotification o)
    (hPQ : ∀ s tr out, P s tr → o ∈ out → (∀ o' ∈ out, ¬ IsNotification o') → Q s (tr ++ out)) :
    Leads (WhileOpen P) (WhileOpen Q) (notify env o) := by
  intro s tr h hopen
  have hmem : o ∈ (notify env o s).2 := by
    rcases emitted_notify env o s with h | h <;> simp [h]
  rcases state_notify env o s with hs | hs
  · rw [hs] at hopen ⊢
    exact hPQ s tr _ (h hopen) hmem (quiet_notify ho s)
  · exact absurd hs (by simp [hopen])

theorem leads_open {P Q : State → List Output → Prop} {f : State → State}
    {g : Handler State Output} (hf : ∀ s, s.isShutdown = true → (f s).isShutdown = true)
    (hg : ∀ s tr, s.isShutdown = false → P s tr → WhileOpen Q (g s).1 (tr ++ (g s).2)) :
    Leads (WhileOpen P) (WhileOpen Q) (fun s => if s.isShutdown then (f s, []) else g s) := by
  intro s tr h hopen
  by_cases hs : s.isShutdown = true
  · simp [hs, hf s hs] at hopen
  · simp only [hs, Bool.false_eq_true, if_false] at hopen ⊢
    have hs := Bool.eq_false_of_not_eq_true hs
    exact hg s tr hs (h hs) hopen

/-- A check may be asked for here: no timer races it, and nothing was counted against it. -/
structure Ready (s : State) : Prop where
  stopped : s.zmqTimer = false
  pending : s.heightPending = true → s.zmqHeightRetries = 0
  inFlight : s.heightInFlight = true → s.zmqHeightRetries = 0

/-- A height request has been made ready but not yet sent. -/
structure Starting (request : RequestMetadata) (s : State) : Prop where
  inFlight : s.heightInFlight = true
  request : s.heightRequest = request
  stopped : s.zmqTimer = false
  calm : s.heightPending = true → s.zmqHeightRetries = 0

theorem Starting.awake {request : RequestMetadata} {tr : List Output}
    (h : Starting request s) :
    Waking s (tr ++ [.fetch .height request.requestId]) ∧ Busy s := by
  refine ⟨⟨fun ht => ?_, fun hp _ => h.calm hp, ?_⟩, fun _ => Or.inl h.inFlight⟩
  · exact absurd ht (by simp [h.stopped])
  · refine (since_true _ tr).append (fun o ho => ?_) fun later _ => ?_
    · obtain rfl := List.mem_singleton.mp ho
      exact not_false
    · refine Or.inr (Or.inr (Or.inr ⟨h.inFlight, ?_⟩))
      rw [h.request]
      exact List.mem_append_right _ List.mem_cons_self

/-- Listeners hear of a request before it is sent, and may prevent it. -/
theorem send_awake {P : State → List Output → Prop} {f : State → State} {kind : RequestKind}
    {request : RequestMetadata} (hf : ∀ s, s.isShutdown = true → (f s).isShutdown = true)
    (hP : ∀ s tr out, P s tr → (∀ o ∈ out, ¬ IsNotification o) → P s (tr ++ out))
    (hfetch : ∀ s tr, P s tr → Waking s (tr ++ [.fetch kind request.requestId]) ∧ Busy s) :
    Leads (WhileOpen P) Awake
      (seq (notify env (.request request)) fun s =>
        if s.isShutdown then (f s, []) else (s, [.fetch kind request.requestId])) :=
  (@leads_notify env (.request request) P P not_false fun s tr out h _ hout =>
    hP s tr out h hout).seq
    (leads_open hf fun s tr _ h _ => hfetch s tr h)

/-- Asking for the height covers every notification so far, whatever was owed before. -/
theorem requestHeight_awake (env : Env) (followup : Bool) :
    Leads (WhileOpen fun s _ => Ready s) Awake (requestHeight env followup) := by
  refine leads_open (fun _ => id) fun s tr hs hready => ?_
  by_cases hbusy : (s.heightInFlight || s.templateInFlight) = true
  · rw [if_pos hbusy]
    intro _
    refine ⟨⟨fun ht => ?_, fun _ => hready.inFlight, ?_⟩, fun _ => by simpa using hbusy⟩
    · exact absurd ht (by simp [hready.stopped])
    · exact (since_true _ _).mono fun later _ => Or.inr (Or.inl rfl)
  · rw [if_neg hbusy]
    have hsend : ∀ request : RequestMetadata, Leads (WhileOpen fun s _ => Starting request s) Awake
        (seq (notify env (.request request)) fun s =>
          if s.isShutdown then ({ s with heightInFlight := false, heightFollowup := false }, [])
          else (s, [.fetch .height request.requestId])) :=
      fun request => send_awake (fun _ => id) (fun _ _ _ h _ => h) fun _ _ h => h.awake
    exact hsend _ _ tr fun _ => ⟨rfl, rfl, hready.stopped, hready.pending⟩

/-- With a template in flight every pending check is bound to be drained. -/
theorem requestTemplate_awake (env : Env) (reason : RefreshReason) :
    Leads (WhileOpen Waking) Awake (requestTemplate env reason) := by
  refine leads_open (fun _ => id) fun s tr hs hwaking => ?_
  by_cases hbusy : s.templateInFlight = true
  · rw [if_pos hbusy, List.append_nil]
    exact fun _ => ⟨hwaking.same ⟨rfl, rfl, rfl, rfl, rfl⟩, fun _ => Or.inr hbusy⟩
  · rw [if_neg hbusy]
    have hsend : ∀ request : RequestMetadata, Leads
        (WhileOpen fun s tr => Waking s tr ∧ s.templateInFlight = true) Awake
        (seq (notify env (.request request)) fun s =>
          if s.isShutdown then ({ s with templateInFlight := false }, [])
          else (s, [.fetch .blockTemplate request.requestId])) := by
      refine fun request => send_awake (fun _ => id) (fun s tr out h hout => ?_) fun s tr h => ?_
      · exact ⟨h.1.congr ⟨rfl, rfl, rfl, rfl, rfl⟩ hout, h.2⟩
      · refine ⟨h.1.congr ⟨rfl, rfl, rfl, rfl, rfl⟩ fun o ho => ?_, fun _ => Or.inr h.2⟩
        obtain rfl := List.mem_singleton.mp ho
        exact not_false
    exact hsend _ _ tr fun _ => ⟨hwaking.same ⟨rfl, rfl, rfl, rfl, rfl⟩, rfl⟩

theorem drainTemplateQueue_waking (env : Env) :
    Leads (WhileOpen Waking) (WhileOpen Waking) (drainTemplateQueue env) := by
  intro s tr h
  unfold drainTemplateQueue
  by_cases hskip : (s.isShutdown || !s.templatePending || s.templateInFlight) = true
  · rw [if_pos hskip, List.append_nil]
    exact h
  · rw [if_neg hskip]
    dsimp only
    have hdrained : WhileOpen Waking
        { s with templatePending := false, pendingReason := .timer } tr :=
      fun hopen => (h hopen).same ⟨rfl, rfl, rfl, rfl, rfl⟩
    split
    · rw [List.append_nil]
      exact hdrained
    · intro hopen
      exact (requestTemplate_awake env _ _ tr hdrained hopen).1

/-- Draining leaves a check pending only behind a request. -/
theorem drainHeightQueue_awake (env : Env) (coveredByTemplate : Bool) :
    Leads (WhileOpen Waking) Awake (drainHeightQueue env coveredByTemplate) := by
  intro s tr h
  unfold drainHeightQueue
  by_cases hskip :
    (s.isShutdown || !s.heightPending || s.heightInFlight || s.templateInFlight) = true
  · rw [if_pos hskip, List.append_nil]
    refine fun hopen => ⟨h hopen, fun hpending => ?_⟩
    have hopen : s.isShutdown = false := hopen
    have hpending : s.heightPending = true := hpending
    simpa [hopen, hpending] using hskip
  · rw [if_neg hskip]
    refine requestHeight_awake env coveredByTemplate _ tr fun hopen => ?_
    have hpending : s.heightPending = true ∧ s.heightInFlight = false := by
      simp at hskip
      exact ⟨hskip.1.1.2, hskip.1.2⟩
    refine ⟨?_, fun hp => absurd hp Bool.false_ne_true, fun hflight => ?_⟩
    · by_contra htimer
      have := ((h hopen).exclusive (by simpa using htimer)).2
      simp [hpending.1] at this
    · exact absurd hflight (by simp [hpending.2])

theorem notify_waking (env : Env) (o : Output) (ho : ¬ IsNotification o) :
    Leads (WhileOpen Waking) (WhileOpen Waking) (notify env o) :=
  leads_notify ho fun _ _ _ h _ hout => h.congr ⟨rfl, rfl, rfl, rfl, rfl⟩ hout

theorem notify_finished (env : Env) (o : Output) (ho : ¬ IsNotification o) (pending : Bool) :
    Leads (WhileOpen (Finished pending)) (WhileOpen (Finished pending)) (notify env o) :=
  leads_notify ho fun _ _ _ h _ hout => h.congr ⟨rfl, rfl, rfl, rfl, rfl⟩ hout

theorem emit_waking (o : Output) (ho : ¬ IsNotification o) :
    Leads (WhileOpen Waking) (WhileOpen Waking) (emit o) := by
  refine fun s tr h hopen => (h hopen).congr ⟨rfl, rfl, rfl, rfl, rfl⟩ fun o' ho' => ?_
  obtain rfl := List.mem_singleton.mp ho'
  exact ho

theorem leads_emit {P : State → List Output → Prop} (o : Output) :
    Leads (fun s tr => P s (tr ++ [o])) P (emit o) := fun _ _ h => h

theorem observe_waking (height : ℕ) :
    Leads (WhileOpen Waking) (WhileOpen Waking)
      (fun s => (s, if s.isShutdown then [] else [.observeHeight height])) := by
  refine fun s tr h hopen => (h hopen).congr ⟨rfl, rfl, rfl, rfl, rfl⟩ fun o ho => ?_
  have hopen : s.isShutdown = false := hopen
  simp only [hopen, Bool.false_eq_true, if_false, List.mem_singleton] at ho
  rw [ho]
  exact not_false

theorem failTemplate_awake (env : Env) (message : String) :
    Leads Awake Awake (failTemplate env message) := by
  intro s tr h
  have htimer : Leads Awake Awake (fun s : State =>
      (if !s.isShutdown && !s.templateInFlight && !s.templatePending then
        { s with timer := true } else s, ([] : List Output))) := by
    intro s tr h
    dsimp only
    split
    · intro hopen
      obtain ⟨hw, hbusy⟩ := h hopen
      rw [List.append_nil]
      exact ⟨hw.same ⟨rfl, rfl, rfl, rfl, rfl⟩, hbusy⟩
    · rw [List.append_nil]
      exact h
  have hrun :=
    (emit_waking (.completed .blockTemplate s.templateRequest.requestId) not_false).seq <|
    (notify_waking env (.error s.templateRequest message) not_false).seq <|
    (drainTemplateQueue_waking env).seq <| (drainHeightQueue_awake env false).seq htimer
  exact hrun _ tr fun hopen => (h hopen).1.same ⟨rfl, rfl, rfl, rfl, rfl⟩

theorem install_awake (env : Env) (snapshot : Snapshot) :
    Leads Awake Awake (install env snapshot) := by
  intro s tr h
  have hrun := fun snapshot : Snapshot => fun advanced =>
    (emit_waking (.completed .blockTemplate s.templateRequest.requestId) not_false).seq <|
      (notify_waking env (.snapshot snapshot) not_false).seq <|
        (observe_waking snapshot.height).seq <|
          (drainTemplateQueue_waking env).seq (drainHeightQueue_awake env advanced)
  exact hrun _ _ _ tr fun hopen => (h hopen).1.same ⟨rfl, rfl, rfl, rfl, rfl⟩

/-- The completed request discharges what it covered; the rest was pending. -/
theorem Waking.finish {s' : State} {tr : List Output} (h : Waking s tr)
    (hflight : s.heightInFlight = true) (hidle : s'.heightInFlight = false)
    (htimer : s'.zmqTimer = s.zmqTimer) (hretries : s'.zmqHeightRetries = s.zmqHeightRetries) :
    Finished s.heightPending s' (tr ++ [.completed .height s.heightRequest.requestId]) := by
  have hstopped : s.zmqTimer = false := by
    by_contra htimer
    have := (h.exclusive (by simpa using htimer)).1
    simp [hflight] at this
  refine ⟨hidle, htimer.trans hstopped, fun hp => hretries.trans (h.calm hp hflight), ?_⟩
  refine h.covered.append (fun o ho => ?_) fun later hlater => ?_
  · obtain rfl := List.mem_singleton.mp ho
    exact not_false
  · rcases hlater with hlater | hlater | hlater | ⟨-, hlater⟩
    · exact Or.inl (hlater.append _)
    · exact Or.inr hlater
    · exact absurd hlater (by simp [hstopped])
    · exact Or.inl (answered_of_mem hlater List.mem_cons_self)

/-- An armed timer takes over every debt. -/
theorem waking_of_timer {s : State} {tr : List Output} (htimer : s.zmqTimer = true)
    (hflight : s.heightInFlight = false) (hpending : s.heightPending = false) :
    Waking s tr ∧ Busy s := by
  refine ⟨⟨fun _ => ⟨hflight, hpending⟩, fun hp => ?_, ?_⟩, fun hp => ?_⟩
  · exact absurd hp (by simp [hpending])
  · exact (since_true _ _).mono fun _ _ => Or.inr (Or.inr (Or.inl htimer))
  · exact absurd hp (by simp [hpending])

/-- Nothing is left to do when no check was recorded meanwhile. -/
theorem Finished.waking {s' : State} {tr : List Output} (h : Finished false s tr)
    (htimer : s'.zmqTimer = false) (hpending : s'.heightPending = false) :
    Waking s' tr ∧ Busy s' := by
  refine ⟨⟨fun ht => ?_, fun hp => ?_, h.covered.mono fun later hlater => ?_⟩, fun hp => ?_⟩
  · exact absurd ht (by simp [htimer])
  · exact absurd hp (by simp [hpending])
  · exact hlater.elim Or.inl fun hp => absurd hp Bool.false_ne_true
  · exact absurd hp (by simp [hpending])

theorem failHeight_awake (env : Env) (message : String) (s : State) (tr : List Output)
    (h : Awake s tr) (hflight : s.heightInFlight = true) :
    Awake (failHeight env message s).1 (tr ++ (failHeight env message s).2) := by
  have hretry : ∀ followup pending, Leads (WhileOpen (Finished pending)) Awake
      (fun s : State =>
        let s := { s with heightPending := false }
        if s.isShutdown then (s, [])
        else if s.zmqHeightRetries + 1 ≤ kMaxZmqHeightRetries then
          ({ s with
              zmqHeightRetries := s.zmqHeightRetries + 1
              heightRetryFollowup := followup
              zmqTimer := true }, ([] : List Output))
        else ({ s with zmqHeightRetries := 0, heightRetryFollowup := false }, [])) := by
    intro followup pending
    refine leads_open (fun _ => id) fun s tr _ h _ => ?_
    by_cases hbudget : s.zmqHeightRetries + 1 ≤ kMaxZmqHeightRetries
    · dsimp only
      rw [if_pos hbudget, List.append_nil]
      exact waking_of_timer rfl h.idle rfl
    · -- A check recorded meanwhile would have reset the count.
      obtain rfl : pending = false := by
        by_contra hp
        have := h.calm (by simpa using hp)
        exact hbudget (by simp [this, kMaxZmqHeightRetries])
      dsimp only
      rw [if_neg hbudget, List.append_nil]
      exact h.waking h.stopped rfl
  have hrun := (leads_emit (.completed .height s.heightRequest.requestId)).seq <|
    (notify_finished env (.error s.heightRequest message) not_false s.heightPending).seq
      (hretry s.heightFollowup s.heightPending)
  exact hrun _ tr fun hopen => (h hopen).1.finish hflight rfl rfl rfl

theorem sameTip_awake {pending : Bool} {followup : Bool} {s : State} {tr : List Output}
    (h : Finished pending s tr) (hpending : s.heightPending = false) :
    Waking (sameTip followup pending s) tr ∧ Busy (sameTip followup pending s) := by
  unfold sameTip
  by_cases hfollowup : followup = true
  · rw [if_pos hfollowup]
    by_cases hp : pending = true
    · rw [if_pos hp]
      exact waking_of_timer rfl h.idle hpending
    · obtain rfl : pending = false := by simpa using hp
      exact h.waking rfl hpending
  · rw [if_neg hfollowup]
    by_cases hbudget : s.zmqHeightRetries + 1 ≤ kMaxZmqHeightRetries
    · rw [if_pos hbudget]
      exact waking_of_timer rfl h.idle hpending
    · rw [if_neg hbudget]
      obtain rfl : pending = false := by
        by_contra hp
        have := h.calm (by simpa using hp)
        exact hbudget (by simp [this, kMaxZmqHeightRetries])
      exact h.waking h.stopped hpending

theorem isShutdown_sameTip (followup pending : Bool) (s : State) :
    (sameTip followup pending s).isShutdown = s.isShutdown := by
  unfold sameTip
  split
  · dsimp only
    split <;> rfl
  · split <;> rfl

/-- A new tip keeps the check recorded meanwhile behind the template it asks for. -/
theorem newTip_awake (env : Env) (pending : Bool) (height : ℕ) (hash : String) :
    Leads (WhileOpen (Finished pending)) Awake (newTip env pending height hash) := by
  intro s tr h
  have hrequest : Leads (WhileOpen (Finished pending)) Awake
      (fun s => requestTemplate env .zmq { s with heightPending := pending }) := by
    refine fun s tr h => requestTemplate_awake env .zmq _ tr fun hopen => ?_
    have h := h hopen
    refine ⟨fun ht => ?_, fun _ hf => ?_, h.covered.mono fun later hlater => ?_⟩
    · exact absurd ht (by simp [h.stopped])
    · exact absurd hf (by simp [h.idle])
    · exact hlater.imp id Or.inl
  apply ((notify_finished env (.tipChanged height hash) not_false pending).seq hrequest) _ tr
  intro hopen
  have h := h hopen
  exact ⟨h.idle, rfl, fun _ => rfl, h.covered⟩

theorem compareHeight_awake (env : Env) (height : ℕ) (hash : String) (s : State)
    (tr : List Output) (h : Awake s tr) (hflight : s.heightInFlight = true) :
    Awake (compareHeight env height hash s).1 (tr ++ (compareHeight env height hash s).2) := by
  have hcompare : ∀ followup pending, Leads
      (WhileOpen fun s tr => Finished pending s tr ∧ s.heightPending = false) Awake
      (fun s => if s.latest.any fun latest => hash = latest.prevHash then
        (sameTip followup pending s, []) else newTip env pending height hash s) := by
    intro followup pending s tr h
    dsimp only
    split
    · intro hopen
      rw [List.append_nil]
      refine sameTip_awake (h ?_).1 (h ?_).2
      all_goals rwa [isShutdown_sameTip] at hopen
    · exact newTip_awake env pending height hash s tr fun hopen => (h hopen).1
  have hrun := (leads_emit (.completed .height s.heightRequest.requestId)).seq
    (hcompare s.heightFollowup s.heightPending)
  exact hrun _ tr fun hopen => ⟨(h hopen).1.finish hflight rfl rfl rfl, rfl⟩

theorem onHttpData_awake (env : Env) (kind : RequestKind) (rpcId : ℕ) (data : HttpData) :
    Leads Awake Awake (onHttpData env kind rpcId data) := by
  intro s tr h
  unfold onHttpData
  split
  · simpa using h
  · cases kind with
    | blockTemplate =>
        dsimp only
        split
        · simpa using h
        · split
          · exact failTemplate_awake env _ s tr h
          · exact install_awake env _ s tr h
    | height =>
        dsimp only
        split
        · simpa using h
        · next haccepted =>
          have hflight : s.heightInFlight = true := by
            simp only [Bool.or_eq_true, Bool.not_eq_true', not_or] at haccepted
            simpa using haccepted.1
          split
          · exact failHeight_awake env _ s tr h hflight
          · exact compareHeight_awake env _ _ s tr h hflight

/-- A notification asks for the height at once, or records that it has to be asked for. -/
theorem notifyZmq_awake (env : Env) : Leads Awake Awake (notifyZmq env) := by
  have hrequest : Leads (fun _ _ => True) Awake (fun s =>
      if s.isShutdown then (s, [])
      else requestHeight env false
        { s with zmqTimer := false, zmqHeightRetries := 0, heightRetryFollowup := false }) := by
    intro s tr _
    dsimp only
    split
    · next hs => exact fun hopen => absurd hs (by rw [hopen]; exact Bool.false_ne_true)
    · exact requestHeight_awake env false _ tr fun _ => ⟨rfl, fun _ => rfl, fun _ => rfl⟩
  intro s tr _
  have hnotify : Leads (fun _ _ => True) (fun _ _ => True)
      (notify env (.notification (s.notificationSequence + 1))) := fun _ _ _ => trivial
  exact hnotify.seq hrequest _ tr trivial

theorem handle_awake (env : Env) (e : Event) : Leads Awake Awake (handle env e) := by
  intro s tr h
  cases e with
  | start =>
      unfold handle start
      dsimp only
      split
      · simpa using h
      · refine requestTemplate_awake env .initial _ tr fun hopen => ?_
        exact (h hopen).1.same ⟨rfl, rfl, rfl, rfl, rfl⟩
  | timer =>
      unfold handle
      dsimp only
      split
      · simpa using h
      · refine requestTemplate_awake env .timer _ tr fun hopen => ?_
        exact (h hopen).1.same ⟨rfl, rfl, rfl, rfl, rfl⟩
  | zmqTimer =>
      unfold handle
      dsimp only
      split
      · simpa using h
      · next harmed =>
        refine requestHeight_awake env _ _ tr fun hopen => ?_
        have htimer : s.zmqTimer = true := by
          simp only [Bool.or_eq_true, Bool.not_eq_true', not_or] at harmed
          simpa using harmed.2
        obtain ⟨hflight, hpending⟩ := (h hopen).1.exclusive htimer
        refine ⟨rfl, fun hp => ?_, fun hf => ?_⟩
        · exact absurd hp (by simp [hpending])
        · exact absurd hf (by simp [hflight])
  | zmq =>
      unfold handle
      dsimp only
      split
      · simpa using h
      · exact notifyZmq_awake env s tr h
  | response kind rpcId data => exact onHttpData_awake env kind rpcId data s tr h
  | shutdown =>
      intro hopen
      have hopen : (shutdown s).1.isShutdown = false := hopen
      exact absurd (isShutdown_shutdown s) (by simp [hopen])

end Handlers

section Runs

variable {es : ℕ → Env × Event}

theorem awake_init : Awake machine.init [] := by
  refine fun _ => ⟨⟨fun ht => ?_, fun hp => ?_, since_nil _ _⟩, fun hp => ?_⟩
  · exact absurd ht Bool.false_ne_true
  · exact absurd hp Bool.false_ne_true
  · exact absurd hp Bool.false_ne_true

theorem awake (es : ℕ → Env × Event) (k : ℕ) : Awake (machine.state es k) (machine.trace es k) :=
  Machine.invariant_trace awake_init (fun s tr e => handle_awake e.1 e.2 s tr) k

/-- What is observed of a debt: until a height request started after the notification has
completed, the flags carry it. -/
theorem notification_carried (es : ℕ → Env × Event) (k n : ℕ) (before after : List Output)
    (hopen : (machine.state es k).isShutdown = false)
    (hnotified : machine.trace es k = before ++ .notification n :: after)
    (hunanswered : ¬ Answered after) :
    (machine.state es k).heightInFlight = true ∨
      ((machine.state es k).heightPending = true ∧
        ((machine.state es k).heightInFlight = true ∨
          (machine.state es k).templateInFlight = true)) ∨
      (machine.state es k).zmqTimer = true := by
  obtain ⟨hwaking, hbusy⟩ := awake es k hopen
  rcases hwaking.covered before (.notification n) after trivial hnotified with h | h | h | ⟨h, -⟩
  · exact absurd h hunanswered
  · exact Or.inr (Or.inl ⟨h, hbusy h⟩)
  · exact Or.inr (Or.inr h)
  · exact Or.inl h

end Runs

end XmrigProxy.DaemonTemplateSource
