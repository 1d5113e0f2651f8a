import XmrigProxy.SubmissionLaws

/-! The responses that are delivered while a block is submitted. A response counts when it is the
first for its request and the submission of the request was not reported yet; what it says is read
off the response itself, and decides the outcome. -/
namespace XmrigProxy.SubmissionLaws

open DaemonSubmission Handler

section Responses

/-- The request was answered, and without an error. -/
def Replied (id : ℕ) (data : HttpData) (doc : Json) : Prop :=
  data.status = 200 ∧ data.body = .ok doc ∧ doc.getInt64 "id" (-1) = id

/-- The daemon took the block. -/
def SaysOk (id : ℕ) (data : HttpData) : Prop :=
  ∃ doc, Replied id data doc ∧ (doc.getObject "error").isObject = false ∧
    (doc.getObject "result").isObject = true ∧ (doc.getObject "result").text "status" = some "OK"

/-- The daemon refused the block, with an error or with another status. -/
def SaysRejected (id : ℕ) (data : HttpData) : Prop :=
  ∃ doc, Replied id data doc ∧
    if (doc.getObject "error").isObject then
      ∃ message, (doc.getObject "error").text "message" = some message
    else (doc.getObject "result").isObject = true ∧
      ∃ status, (doc.getObject "result").text "status" = some status ∧ status ≠ "" ∧ status ≠ "OK"

theorem classify_accepted_iff (result : Json) : classifySubmitResult result = .accepted ↔
    result.isObject = true ∧ result.text "status" = some "OK" := by
  unfold classifySubmitResult
  cases result.isObject <;> cases result.text "status" with
  | none => simp
  | some status =>
      by_cases h1 : status = "" <;> by_cases h2 : status = "OK" <;> simp_all

theorem classify_rejected_iff (result : Json) : (classifySubmitResult result).answer = .rejected ↔
    result.isObject = true ∧
      ∃ status, result.text "status" = some status ∧ status ≠ "" ∧ status ≠ "OK" := by
  unfold classifySubmitResult
  cases result.isObject <;> cases result.text "status" with
  | none => simp [Decision.answer]
  | some status =>
      by_cases h1 : status = "" <;> by_cases h2 : status = "OK" <;> simp_all [Decision.answer]

theorem decision_of_replied {id : ℕ} {data : HttpData} {doc : Json} (h : Replied id data doc) :
    (decision id data).answer =
      if (doc.getObject "error").isObject then
        if ((doc.getObject "error").text "message").isSome then .rejected else .indeterminate
      else (classifySubmitResult (doc.getObject "result")).answer := by
  obtain ⟨hstatus, hbody, hid⟩ := h
  unfold decision
  rw [if_neg (not_not.mpr hstatus), hbody]
  dsimp only
  rw [if_neg (not_not.mpr hid)]
  split
  · cases (doc.getObject "error").text "message" <;> rfl
  · rfl

theorem decision_of_not_replied {id : ℕ} {data : HttpData} (h : ∀ doc, ¬ Replied id data doc) :
    (decision id data).answer = .indeterminate := by
  unfold decision
  split
  · rfl
  · next hstatus =>
    cases hbody : data.body with
    | error message => rfl
    | ok doc =>
        dsimp only
        rw [if_pos fun hid => h doc ⟨not_not.mp hstatus, hbody, hid⟩]
        rfl

theorem replied_unique {id : ℕ} {data : HttpData} {doc doc' : Json} (h : Replied id data doc)
    (h' : Replied id data doc') : doc = doc' :=
  Except.ok.inj (h.2.1.symm.trans h'.2.1)

/-- The client takes for an acceptance what is one. -/
theorem answer_ok_iff (id : ℕ) (data : HttpData) :
    (decision id data).answer = .ok ↔ SaysOk id data := by
  by_cases hreplied : ∃ doc, Replied id data doc
  · obtain ⟨doc, hdoc⟩ := hreplied
    have hok : SaysOk id data ↔ (doc.getObject "error").isObject = false ∧
        (doc.getObject "result").isObject = true ∧
        (doc.getObject "result").text "status" = some "OK" := by
      constructor
      · rintro ⟨doc', hdoc', hrest⟩
        exact replied_unique hdoc' hdoc ▸ hrest
      · exact fun hrest => ⟨doc, hdoc, hrest⟩
    have hclassify := classify_accepted_iff (doc.getObject "result")
    rw [hok, decision_of_replied hdoc, ← hclassify]
    cases (doc.getObject "error").isObject with
    | true => cases ((doc.getObject "error").text "message").isSome <;> simp
    | false => cases classifySubmitResult (doc.getObject "result") <;> simp [Decision.answer]
  · rw [decision_of_not_replied (not_exists.mp hreplied)]
    apply iff_of_false Answer.noConfusion
    rintro ⟨doc, hdoc, -⟩
    exact hreplied ⟨doc, hdoc⟩

/-- The client takes for a rejection what is one. -/
theorem answer_rejected_iff (id : ℕ) (data : HttpData) :
    (decision id data).answer = .rejected ↔ SaysRejected id data := by
  by_cases hreplied : ∃ doc, Replied id data doc
  · obtain ⟨doc, hdoc⟩ := hreplied
    have hrejected : SaysRejected id data ↔ if (doc.getObject "error").isObject then
        ∃ message, (doc.getObject "error").text "message" = some message
        else (doc.getObject "result").isObject = true ∧ ∃ status,
          (doc.getObject "result").text "status" = some status ∧ status ≠ "" ∧ status ≠ "OK" := by
      constructor
      · rintro ⟨doc', hdoc', hrest⟩
        exact replied_unique hdoc' hdoc ▸ hrest
      · exact fun hrest => ⟨doc, hdoc, hrest⟩
    rw [hrejected, decision_of_replied hdoc, ← classify_rejected_iff]
    split
    · rw [← Option.isSome_iff_exists]
      split <;> simp_all
    · rfl
  · rw [decision_of_not_replied (not_exists.mp hreplied)]
    apply iff_of_false Answer.noConfusion
    rintro ⟨doc, hdoc, -⟩
    exact hreplied ⟨doc, hdoc⟩

end Responses

section Runs

variable {es : ℕ → ℕ × Event} {k : ℕ}

theorem answered_step {sys : System} {e : ℕ × Event} (hlive : sys.live = true) (id : ℕ) :
    id ∈ (step sys e).1.answered ↔ id ∈ sys.answered ∨ ∃ data, e.2 = .response id data := by
  obtain ⟨elapsed, event⟩ := e
  cases event with
  | response id' data =>
      simp only [step, hlive, Bool.not_true, Bool.false_eq_true, if_false, List.mem_cons,
        Event.response.injEq]
      constructor
      · rintro (rfl | h)
        · exact Or.inr ⟨data, rfl, rfl⟩
        · exact Or.inl h
      · rintro (h | ⟨data', rfl, -⟩)
        · exact Or.inr h
        · exact Or.inl rfl
  | _ => simp [step, hlive]

/-- The requests to which a response was delivered. -/
theorem mem_answered (hlive : (machine.state es k).live = true) (id : ℕ) :
    id ∈ (machine.state es k).answered ↔ ∃ i < k, ∃ data, (es i).2 = .response id data := by
  induction k with
  | zero => simp [machine]
  | succ k ih =>
      have hbefore := step_live hlive
      rw [Machine.state_succ]
      change id ∈ (step (machine.state es k) (es k)).1.answered ↔ _
      rw [answered_step hbefore, ih hbefore]
      constructor
      · rintro (⟨i, hi, h⟩ | h)
        · exact ⟨i, hi.trans (Nat.lt_succ_self k), h⟩
        · exact ⟨k, Nat.lt_succ_self k, h⟩
      · rintro ⟨i, hi, h⟩
        rcases Nat.lt_succ_iff_lt_or_eq.mp hi with hi | rfl
        · exact Or.inl ⟨i, hi, h⟩
        · exact Or.inr h

/-- The request was made for the submission `q`, which is not reported yet, and no response to it
was delivered. -/
structure Outstanding (es : ℕ → ℕ × Event) (q k id : ℕ) : Prop where
  requested : ∃ a ∈ attempts (history q (machine.trace es k)), a.id = id
  unreported : reports (history q (machine.trace es k)) = []
  unanswered : ∀ i < k, ∀ data, (es i).2 ≠ .response id data

/-- Before step `k` the request of the submission `q` was given this response. -/
def Delivered (es : ℕ → ℕ × Event) (q k id : ℕ) (data : HttpData) : Prop :=
  ∃ i < k, (es i).2 = .response id data ∧ Outstanding es q i id

theorem outstanding_iff (hlive : (machine.state es k).live = true) (q id : ℕ) :
    Outstanding es q k id ↔ id ∉ (machine.state es k).answered ∧
      ∃ p, (machine.state es k).client.pendingSubmissions.find id = some p ∧ p.result.seq = q := by
  have h := reachable_consistent es k hlive
  have hanswered : id ∉ (machine.state es k).answered ↔
      ∀ i < k, ∀ data, (es i).2 ≠ .response id data := by
    rw [mem_answered hlive]
    push Not
    rfl
  constructor
  · rintro ⟨⟨a, ha, rfl⟩, hunreported, hunanswered⟩
    refine ⟨hanswered.mpr hunanswered, ?_⟩
    have hsome : history q (machine.trace es k) ≠ [] := by
      intro hnone
      rw [hnone] at ha
      exact absurd ha List.not_mem_nil
    rcases h.closed q hsome with ⟨id, p, hfind, rfl⟩ | hclosed
    · rcases h.spent id p hfind a ha with heq | ⟨seq, answer, hreturned⟩
      · exact ⟨p, heq ▸ hfind, rfl⟩
      · exact absurd (h.known seq a.id answer (List.mem_filter.mp hreturned).1)
          (hanswered.mpr hunanswered)
    · obtain ⟨result, hreported, -⟩ := hclosed.reported
      rw [hunreported] at hreported
      cases hreported
  · rintro ⟨hunanswered, p, hfind, rfl⟩
    exact ⟨h.current id p hfind, (h.opened id p hfind).1.unreported, hanswered.mp hunanswered⟩

/-- A tick does nothing but start attempts. -/
theorem of_mem_tick {now : ℕ} {s : State} {o : Output} (h : o ∈ (tick now s).2) :
    ∃ seq id blob, o = .attempt seq id blob now := by
  have hloop : ∀ (ids : List ℕ) (s : State), o ∈ (forEach (retrySubmission now) ids s).2 →
      ∃ seq id blob, o = .attempt seq id blob now := by
    intro ids
    induction ids with
    | nil => exact fun s h => absurd h List.not_mem_nil
    | cons id rest ih =>
        intro s hmem
        rcases List.mem_append.mp hmem with hmem | hmem
        · unfold retrySubmission at hmem
          split at hmem
          · exact absurd hmem List.not_mem_nil
          · dsimp only at hmem
            split at hmem
            · exact absurd hmem List.not_mem_nil
            · exact ⟨_, _, _, List.mem_singleton.mp hmem⟩
        · exact ih _ hmem
  exact hloop _ s h

theorem of_mem_finalize {id : ℕ} {outcome : SubmitOutcome} {message : Option String} {s : State}
    {o : Output} (h : o ∈ (finalizeSubmission id outcome message s).2) :
    ∃ p error, s.pendingSubmissions.find id = some p ∧
      o = .reported { p.result with outcome := outcome } error := by
  unfold finalizeSubmission at h
  cases hfind : s.pendingSubmissions.find id with
  | none => simp [hfind] at h
  | some p =>
      rw [hfind] at h
      exact ⟨p, _, rfl, List.mem_singleton.mp h⟩

/-- A disconnect does nothing but report ambiguous outcomes. -/
theorem of_mem_disconnect {s : State} {o : Output} (h : o ∈ (disconnect s).2) :
    ∃ r error, o = .reported r error ∧ r.outcome = .ambiguous := by
  have hloop : ∀ (ids : List ℕ) (s : State),
      o ∈ (forEach (fun id => finalizeSubmission id .ambiguous
      "daemon client disconnected before submitblock outcome was known") ids s).2 →
        ∃ r error, o = .reported r error ∧ r.outcome = .ambiguous := by
    intro ids
    induction ids with
    | nil => exact fun s h => absurd h List.not_mem_nil
    | cons id rest ih =>
        intro s hmem
        rcases List.mem_append.mp hmem with hmem | hmem
        · obtain ⟨p, error, -, rfl⟩ := of_mem_finalize hmem
          exact ⟨_, error, rfl, rfl⟩
        · exact ih _ hmem
  exact hloop _ s h

theorem returned_onHttpData (now rpcId : ℕ) (data : HttpData) (s : State) {q id : ℕ} {a : Answer} :
    .returned q id a ∈ (onHttpData now rpcId data s).2 ↔
      id = rpcId ∧ a = (decision id data).answer ∧
        ∃ p, s.pendingSubmissions.find id = some p ∧ p.result.seq = q := by
  unfold onHttpData
  cases hfind : s.pendingSubmissions.find rpcId with
  | none =>
      apply iff_of_false List.not_mem_nil
      rintro ⟨rfl, -, p, hp, -⟩
      rw [hfind] at hp
      cases hp
  | some p =>
      have hfinal : ∀ outcome message (s : State),
          .returned q id a ∉ (finalizeSubmission rpcId outcome message s).2 := by
        intro outcome message s hmem
        obtain ⟨p, error, -, hreported⟩ := of_mem_finalize hmem
        cases hreported
      have hsettled : ∀ outcome reason,
          .returned q id a ∉ (retryOrFinalizeSubmission now rpcId outcome reason s).2 := by
        intro outcome reason
        unfold retryOrFinalizeSubmission
        rw [hfind]
        dsimp only
        split
        · exact List.not_mem_nil
        · exact hfinal _ _ _
      dsimp only
      rw [List.mem_cons]
      constructor
      · rintro (h | h)
        · obtain ⟨rfl, rfl, rfl⟩ := Output.returned.inj h
          exact ⟨rfl, rfl, p, hfind, rfl⟩
        · cases hdecided : decision rpcId data with
          | accepted => exact absurd (hdecided ▸ h) (hfinal _ _ _)
          | rejected reason code => exact absurd (hdecided ▸ h) (hsettled _ _)
          | indeterminate reason => exact absurd (hdecided ▸ h) (hsettled _ _)
      · rintro ⟨rfl, rfl, p', hp', rfl⟩
        obtain rfl : p = p' := Option.some.inj (hfind.symm.trans hp')
        exact Or.inl rfl

/-- A step hands exactly the response that is delivered in it to the submission of its request. -/
theorem returned_emitted (hlive : (machine.state es k).live = true) {q id : ℕ} {a : Answer} :
    .returned q id a ∈ machine.emitted es k ↔
      ∃ data, (es k).2 = .response id data ∧ Outstanding es q k id ∧
        a = (decision id data).answer := by
  have hout := outstanding_iff hlive q id
  change .returned q id a ∈ (step (machine.state es k) (es k)).2 ↔ _
  generalize machine.state es k = sys at hlive hout
  obtain ⟨elapsed, event⟩ := es k
  cases event with
  | response rpcId data =>
      by_cases hid : rpcId ∈ sys.answered
      · apply iff_of_false (by simp [step, hlive, hid])
        rintro ⟨data', heq, houtstanding, -⟩
        obtain ⟨rfl, -⟩ := Event.response.inj heq
        exact (hout.mp houtstanding).1 hid
      · have hstep : (step sys (elapsed, .response rpcId data)).2 =
            (onHttpData (sys.now + elapsed) rpcId data sys.client).2 := by
          simp [step, hlive, hid]
        rw [hstep, returned_onHttpData]
        constructor
        · rintro ⟨rfl, rfl, hp⟩
          exact ⟨data, rfl, hout.mpr ⟨hid, hp⟩, rfl⟩
        · rintro ⟨data', heq, houtstanding, rfl⟩
          obtain ⟨rfl, rfl⟩ := Event.response.inj heq
          exact ⟨rfl, rfl, (hout.mp houtstanding).2⟩
  | submit block =>
      refine iff_of_false ?_ (by rintro ⟨data, h, -⟩; cases h)
      cases block <;> simp [step, hlive, submit]
  | tick =>
      refine iff_of_false (fun hmem => ?_) (by rintro ⟨data, h, -⟩; cases h)
      obtain ⟨seq, id, blob, h⟩ := of_mem_tick (by simpa [step, hlive] using hmem)
      cases h
  | disconnect =>
      refine iff_of_false (fun hmem => ?_) (by rintro ⟨data, h, -⟩; cases h)
      obtain ⟨r, error, h, -⟩ := of_mem_disconnect (by simpa [step, hlive] using hmem)
      cases h
  | destroy =>
      refine iff_of_false ?_ (by rintro ⟨data, h, -⟩; cases h)
      simp [step, hlive]
  | otherRequests count =>
      refine iff_of_false ?_ (by rintro ⟨data, h, -⟩; cases h)
      simp [step, hlive]

theorem live_of_le {j : ℕ} (hjk : j ≤ k) (hlive : (machine.state es k).live = true) :
    (machine.state es j).live = true := by
  induction k with
  | zero => exact Nat.le_zero.mp hjk ▸ hlive
  | succ k ih =>
      rcases Nat.le_succ_iff.mp hjk with hjk | rfl
      · exact ih hjk (step_live hlive)
      · exact hlive

/-- The answers that a submission got are those that were delivered. -/
theorem mem_answers (hlive : (machine.state es k).live = true) (q : ℕ) (a : Answer) :
    a ∈ answers (history q (machine.trace es k)) ↔
      ∃ id data, Delivered es q k id data ∧ (decision id data).answer = a := by
  have hmem : a ∈ answers (history q (machine.trace es k)) ↔
      ∃ id, .returned q id a ∈ machine.trace es k := by
    unfold answers history
    rw [List.mem_filterMap]
    constructor
    · rintro ⟨o, ho, heq⟩
      obtain ⟨hin, hseq⟩ := List.mem_filter.mp ho
      cases o with
      | returned seq id answer =>
          obtain rfl := Option.some.inj heq
          obtain rfl : seq = q := of_decide_eq_true hseq
          exact ⟨id, hin⟩
      | _ => cases heq
    · rintro ⟨id, ho⟩
      exact ⟨_, List.mem_filter.mpr ⟨ho, by simp [seqOf]⟩, rfl⟩
  rw [hmem]
  constructor
  · rintro ⟨id, ho⟩
    obtain ⟨i, hi, ho⟩ := (Machine.mem_trace machine).mp ho
    obtain ⟨data, hdata, hout, rfl⟩ := (returned_emitted (live_of_le hi.le hlive)).mp ho
    exact ⟨id, data, ⟨i, hi, hdata, hout⟩, rfl⟩
  · rintro ⟨id, data, ⟨i, hi, hdata, hout⟩, rfl⟩
    exact ⟨id, (Machine.mem_trace machine).mpr
      ⟨i, hi, (returned_emitted (live_of_le hi.le hlive)).mpr ⟨data, hdata, hout, rfl⟩⟩⟩

end Runs

end XmrigProxy.SubmissionLaws
