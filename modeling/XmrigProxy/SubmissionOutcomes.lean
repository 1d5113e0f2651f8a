import XmrigProxy.SubmissionResponses

/-! The outcomes of block submissions. A report follows from the responses delivered to the attempts
or from a disconnect, and a refused attempt is repeated at the first tick from two seconds later. -/
namespace XmrigProxy.SubmissionLaws

open DaemonSubmission Handler

section Handlers

variable {now : ℕ} {s : State}

theorem finalize_reports {id : ℕ} {p : PendingSubmission}
    (hfind : s.pendingSubmissions.find id = some p) (outcome : SubmitOutcome)
    (message : Option String) :
    ∃ error, .reported { p.result with outcome := outcome } error ∈
      (finalizeSubmission id outcome message s).2 := by
  unfold finalizeSubmission
  rw [hfind]
  exact ⟨_, List.mem_singleton_self _⟩

/-- A response reports ambiguity only after an indeterminate answer. -/
theorem reported_onHttpData {id : ℕ} {data : HttpData} {r : SubmitResult} {error : Option String}
    (h : .reported r error ∈ (onHttpData now id data s).2) (hamb : r.outcome = .ambiguous) :
    ∃ p, s.pendingSubmissions.find id = some p ∧ p.result.seq = r.seq ∧
      (p.hadIndeterminateOutcome = true ∨ (decision id data).answer = .indeterminate) := by
  unfold onHttpData at h
  cases hfind : s.pendingSubmissions.find id with
  | none => simp [hfind] at h
  | some p =>
      have hexhausted : ∀ outcome reason,
          .reported r error ∈ (retryOrFinalizeSubmission now id outcome reason s).2 →
          r.seq = p.result.seq ∧
            (p.hadIndeterminateOutcome || decide (outcome = .ambiguous)) = true := by
        intro outcome reason hmem
        unfold retryOrFinalizeSubmission at hmem
        rw [hfind] at hmem
        dsimp only at hmem
        split at hmem
        · exact absurd hmem List.not_mem_nil
        · obtain ⟨p', error, hp', hreported⟩ := of_mem_finalize hmem
          obtain ⟨rfl, -⟩ := Output.reported.inj hreported
          rw [Table.find_insert_self] at hp'
          obtain rfl := Option.some.inj hp'
          refine ⟨rfl, ?_⟩
          by_contra hfalse
          dsimp only at hamb
          rw [if_neg hfalse] at hamb
          cases hamb
      rw [hfind] at h
      dsimp only at h
      rcases List.mem_cons.mp h with h | h
      · cases h
      · cases hdecided : decision id data with
        | accepted =>
            rw [hdecided] at h
            obtain ⟨p', error, -, hreported⟩ := of_mem_finalize h
            obtain ⟨rfl, -⟩ := Output.reported.inj hreported
            cases hamb
        | rejected reason code =>
            rw [hdecided] at h
            obtain ⟨hseq, hbad⟩ := hexhausted _ _ h
            exact ⟨p, rfl, hseq.symm, Or.inl (by simpa using hbad)⟩
        | indeterminate reason =>
            rw [hdecided] at h
            exact ⟨p, rfl, (hexhausted _ _ h).1.symm, Or.inr rfl⟩

theorem attempt_not_mem_onHttpData (rpcId : ℕ) (data : HttpData)
    {seq id start : ℕ} {blob : String} :
    .attempt seq id blob start ∉ (onHttpData now rpcId data s).2 := by
  unfold onHttpData
  cases hfind : s.pendingSubmissions.find rpcId with
  | none => exact List.not_mem_nil
  | some p =>
      have hfinal : ∀ outcome message (s : State),
          .attempt seq id blob start ∉ (finalizeSubmission rpcId outcome message s).2 := by
        intro outcome message s hmem
        obtain ⟨p, error, -, hreported⟩ := of_mem_finalize hmem
        cases hreported
      have hsettled : ∀ outcome reason, .attempt seq id blob start ∉
          (retryOrFinalizeSubmission now rpcId outcome reason s).2 := by
        intro outcome reason
        unfold retryOrFinalizeSubmission
        rw [hfind]
        dsimp only
        split
        · exact List.not_mem_nil
        · exact hfinal _ _ _
      dsimp only
      rw [List.mem_cons, not_or]
      refine ⟨by simp, ?_⟩
      cases decision rpcId data with
      | accepted => exact hfinal _ _ _
      | rejected reason code => exact hsettled _ _
      | indeterminate reason => exact hsettled _ _

/-- Finishing one submission leaves the others alone. -/
theorem find_finalize_of_ne {id other : ℕ} (hne : other ≠ id) (outcome : SubmitOutcome)
    (message : Option String) :
    (finalizeSubmission id outcome message s).1.pendingSubmissions.find other =
      s.pendingSubmissions.find other := by
  unfold finalizeSubmission
  split
  · rfl
  · exact Table.find_erase_of_ne _ hne

theorem find_finalize {id : ℕ} (outcome : SubmitOutcome) (message : Option String) :
    (finalizeSubmission id outcome message s).1.pendingSubmissions.find id = none := by
  unfold finalizeSubmission
  cases hfind : s.pendingSubmissions.find id with
  | none => exact hfind
  | some p => exact Table.find_erase_self _ _

/-- A disconnect reports what is pending, as ambiguous, and nothing else. -/
theorem reported_disconnect {seq : ℕ} :
    (∃ r error, .reported r error ∈ (disconnect s).2 ∧ r.seq = seq) ↔
    ∃ id p, s.pendingSubmissions.find id = some p ∧ p.result.seq = seq := by
  have hloop : ∀ (ids : List ℕ) (s : State),
      (∃ r error, .reported r error ∈ (forEach (fun id => finalizeSubmission id .ambiguous
        "daemon client disconnected before submitblock outcome was known") ids s).2 ∧ r.seq = seq) ↔
        ∃ id ∈ ids, ∃ p, s.pendingSubmissions.find id = some p ∧ p.result.seq = seq := by
    intro ids
    induction ids with
    | nil => simp [forEach, skip]
    | cons id rest ih =>
        intro s
        constructor
        · rintro ⟨r, error, hmem, hseq⟩
          rcases List.mem_append.mp hmem with hmem | hmem
          · obtain ⟨p, error, hp, hreported⟩ := of_mem_finalize hmem
            obtain ⟨rfl, -⟩ := Output.reported.inj hreported
            exact ⟨id, List.mem_cons_self, p, hp, hseq⟩
          · obtain ⟨other, hother, p, hp, hpseq⟩ := (ih _).mp ⟨r, error, hmem, hseq⟩
            have hne : other ≠ id := by
              rintro rfl
              rw [find_finalize] at hp
              cases hp
            rw [find_finalize_of_ne hne] at hp
            exact ⟨other, List.mem_cons_of_mem _ hother, p, hp, hpseq⟩
        · rintro ⟨other, hother, p, hp, hpseq⟩
          by_cases hne : other = id
          · subst hne
            obtain ⟨error, hmem⟩ := finalize_reports hp .ambiguous
              (some "daemon client disconnected before submitblock outcome was known")
            exact ⟨_, error, List.mem_append_left _ hmem, hpseq⟩
          · obtain ⟨r, error, hmem, hseq⟩ := (ih (finalizeSubmission id .ambiguous
              "daemon client disconnected before submitblock outcome was known" s).1).mpr
              ⟨other, (List.mem_cons.mp hother).resolve_left hne, p,
                by rw [find_finalize_of_ne hne, hp], hpseq⟩
            exact ⟨r, error, List.mem_append_right _ hmem, hseq⟩
  unfold disconnect
  rw [hloop]
  constructor
  · rintro ⟨id, -, p, hp⟩
    exact ⟨id, p, hp⟩
  · rintro ⟨id, p, hp, hseq⟩
    exact ⟨id, (Table.mem_keys _).mpr ⟨p, hp⟩, p, hp, hseq⟩

/-- What a tick starts again: an attempt is left and the two seconds are over. -/
def Due (now : ℕ) (p : PendingSubmission) : Prop :=
  p.retryDueMs ≠ 0 ∧ p.retryDueMs ≤ now ∧ p.attempts < maxSubmitAttempts

instance (now : ℕ) (p : PendingSubmission) : Decidable (Due now p) :=
  inferInstanceAs (Decidable (_ ∧ _ ∧ _))

theorem retry_of_ne {id other : ℕ} {p : PendingSubmission} (hne : other ≠ id)
    (hlt : other < s.sequence) (hfind : s.pendingSubmissions.find other = some p) :
    (retrySubmission now id s).1.pendingSubmissions.find other = some p := by
  unfold retrySubmission
  split
  · exact hfind
  · dsimp only
    split
    · exact hfind
    · rw [Table.find_insert_of_ne _ hlt.ne, Table.find_erase_of_ne _ hne, hfind]

/-- A tick starts the next attempt of every due submission and keeps the others. -/
theorem tick_spec (now : ℕ) {id : ℕ} {p : PendingSubmission} (hlt : id < s.sequence)
    (hfind : s.pendingSubmissions.find id = some p) :
    if Due now p then ∃ newId, .attempt p.result.seq newId p.blockBlob now ∈ (tick now s).2
    else (tick now s).1.pendingSubmissions.find id = some p := by
  have hloop : ∀ (ids : List ℕ) (s : State), id < s.sequence →
      s.pendingSubmissions.find id = some p →
      if id ∈ ids ∧ p.retryDueMs ≠ 0 ∧ p.attempts < maxSubmitAttempts
      then ∃ newId, .attempt p.result.seq newId p.blockBlob now ∈
        (forEach (retrySubmission now) ids s).2
      else (forEach (retrySubmission now) ids s).1.pendingSubmissions.find id = some p := by
    intro ids
    induction ids with
    | nil => exact fun s _ hfind => by simpa [forEach, skip] using hfind
    | cons first rest ih =>
        intro s hlt hfind
        by_cases hne : id = first
        · subst hne
          by_cases hready : p.retryDueMs ≠ 0 ∧ p.attempts < maxSubmitAttempts
          · rw [if_pos ⟨List.mem_cons_self, hready⟩]
            refine ⟨s.sequence, List.mem_append_left _ ?_⟩
            simp [retrySubmission, hfind, hready, hasRemainingSubmitAttempts]
          · have hskip : retrySubmission now id s = (s, []) := by
              unfold retrySubmission
              rw [hfind]
              dsimp only
              split
              · rfl
              · next hgo =>
                exact absurd (by simpa [hasRemainingSubmitAttempts] using hgo) hready
            have hrest := ih s hlt hfind
            rw [if_neg fun h => hready h.2] at hrest ⊢
            simpa [forEach, Handler.seq, hskip] using hrest
        · have hrest := ih (retrySubmission now first s).1
            (hlt.trans_le (retrySubmission_sequence first)) (retry_of_ne hne hlt hfind)
          split at hrest
          · next hdue =>
            rw [if_pos ⟨List.mem_cons_of_mem _ hdue.1, hdue.2⟩]
            obtain ⟨newId, h⟩ := hrest
            exact ⟨newId, List.mem_append_right _ h⟩
          · next hdue =>
            rw [if_neg fun h => hdue ⟨(List.mem_cons.mp h.1).resolve_left hne, h.2⟩]
            exact hrest
  have hdue : id ∈ (s.pendingSubmissions.filter fun _ p => isSubmitRetryDue p.retryDueMs now).keys ↔
      p.retryDueMs ≠ 0 ∧ p.retryDueMs ≤ now := by
    rw [Table.mem_keys, Table.find_filter, hfind]
    simp [isSubmitRetryDue, Option.filter_eq_some_iff]
  have hiff : (id ∈ (s.pendingSubmissions.filter fun _ p =>
      isSubmitRetryDue p.retryDueMs now).keys ∧ p.retryDueMs ≠ 0 ∧ p.attempts < maxSubmitAttempts) ↔
      Due now p := by
    rw [hdue]
    unfold Due
    tauto
  have h := hloop (s.pendingSubmissions.filter fun _ p => isSubmitRetryDue p.retryDueMs now).keys s
    hlt hfind
  rwa [if_congr hiff rfl rfl] at h

theorem find_onHttpData_of_ne {id other : ℕ} (hne : other ≠ id) (data : HttpData) :
    (onHttpData now id data s).1.pendingSubmissions.find other =
      s.pendingSubmissions.find other := by
  unfold onHttpData
  cases hfind : s.pendingSubmissions.find id with
  | none => rfl
  | some p =>
      have hsettled : ∀ outcome reason,
          (retryOrFinalizeSubmission now id outcome reason s).1.pendingSubmissions.find other =
            s.pendingSubmissions.find other := by
        intro outcome reason
        unfold retryOrFinalizeSubmission
        rw [hfind]
        dsimp only
        split
        · exact Table.find_insert_of_ne _ hne _
        · rw [find_finalize_of_ne hne]
          exact Table.find_insert_of_ne _ hne _
      dsimp only
      cases decision id data with
      | accepted => exact find_finalize_of_ne hne _ _
      | rejected reason code => exact hsettled _ _
      | indeterminate reason => exact hsettled _ _

/-- A response that is not an OK schedules the next attempt or reports the last one. -/
theorem refused_onHttpData (now : ℕ) {id : ℕ} {p : PendingSubmission} {data : HttpData}
    (hfind : s.pendingSubmissions.find id = some p) (hok : (decision id data).answer ≠ .ok) :
    (p.attempts < maxSubmitAttempts →
      ∃ p', (onHttpData now id data s).1.pendingSubmissions.find id = some p' ∧
        p'.result = p.result ∧ p'.attempts = p.attempts ∧ p'.retryDueMs = now + retryDelayMs) ∧
    (¬ p.attempts < maxSubmitAttempts →
      ∃ r error, .reported r error ∈ (onHttpData now id data s).2 ∧ r.seq = p.result.seq) := by
  have hscheduled : ∀ outcome reason, p.attempts < maxSubmitAttempts →
      ∃ p', (retryOrFinalizeSubmission now id outcome reason s).1.pendingSubmissions.find id =
        some p' ∧ p'.result = p.result ∧ p'.attempts = p.attempts ∧
          p'.retryDueMs = now + retryDelayMs := by
    intro outcome reason hroom
    unfold retryOrFinalizeSubmission
    rw [hfind]
    dsimp only
    rw [if_pos (by simpa [hasRemainingSubmitAttempts] using hroom)]
    exact ⟨_, Table.find_insert_self _ _ _, rfl, rfl, rfl⟩
  have hreported : ∀ outcome reason, ¬ p.attempts < maxSubmitAttempts →
      ∃ r error, .reported r error ∈ (retryOrFinalizeSubmission now id outcome reason s).2 ∧
        r.seq = p.result.seq := by
    intro outcome reason hroom
    unfold retryOrFinalizeSubmission
    rw [hfind]
    dsimp only
    rw [if_neg (by simpa [hasRemainingSubmitAttempts] using hroom)]
    obtain ⟨error, hmem⟩ := finalize_reports (s := { s with
      pendingSubmissions := s.pendingSubmissions.insert id _ }) (Table.find_insert_self _ _ _) _ _
    exact ⟨_, error, hmem, rfl⟩
  unfold onHttpData
  rw [hfind]
  dsimp only
  cases hdecided : decision id data with
  | accepted => exact absurd (by rw [hdecided]; rfl) hok
  | rejected reason code =>
      refine ⟨hscheduled .rejected reason, fun hroom => ?_⟩
      obtain ⟨r, error, hmem, hseq⟩ := hreported .rejected reason hroom
      exact ⟨r, error, List.mem_cons_of_mem _ hmem, hseq⟩
  | indeterminate reason =>
      refine ⟨hscheduled .ambiguous reason, fun hroom => ?_⟩
      obtain ⟨r, error, hmem, hseq⟩ := hreported .ambiguous reason hroom
      exact ⟨r, error, List.mem_cons_of_mem _ hmem, hseq⟩

end Handlers

section Runs

variable {es : ℕ → ℕ × Event} {k : ℕ}

theorem mem_reports {q : ℕ} {r : SubmitResult} {tr : List Output} :
    r ∈ reports (history q tr) ↔ r.seq = q ∧ ∃ error, .reported r error ∈ tr := by
  unfold reports history
  rw [List.mem_filterMap]
  constructor
  · rintro ⟨o, ho, heq⟩
    obtain ⟨hin, hseq⟩ := List.mem_filter.mp ho
    cases o with
    | reported result error =>
        obtain rfl := Option.some.inj heq
        exact ⟨of_decide_eq_true hseq, error, hin⟩
    | _ => cases heq
  · rintro ⟨hseq, error, hin⟩
    exact ⟨_, List.mem_filter.mpr ⟨hin, decide_eq_true hseq⟩, rfl⟩

theorem mem_attempts {q : ℕ} {a : Attempt} {tr : List Output} :
    a ∈ attempts (history q tr) ↔ .attempt q a.id a.blob a.start ∈ tr := by
  unfold attempts history
  rw [List.mem_filterMap]
  constructor
  · rintro ⟨o, ho, heq⟩
    obtain ⟨hin, hseq⟩ := List.mem_filter.mp ho
    cases o with
    | attempt seq id blob start =>
        obtain rfl := Option.some.inj heq
        obtain rfl : seq = q := of_decide_eq_true hseq
        exact hin
    | _ => cases heq
  · intro hin
    exact ⟨_, List.mem_filter.mpr ⟨hin, decide_eq_true rfl⟩, rfl⟩

theorem reports_append (xs ys : List Output) :
    reports (xs ++ ys) = reports xs ++ reports ys := List.filterMap_append ..

theorem reports_nil_of_le {q i : ℕ} (hik : i ≤ k)
    (h : reports (history q (machine.trace es k)) = []) :
    reports (history q (machine.trace es i)) = [] := by
  obtain ⟨out, hout⟩ : machine.trace es i <+: machine.trace es k := machine.trace_mono hik
  rw [← hout, history_append, reports_append] at h
  exact (List.append_eq_nil_iff.mp h).1

theorem attempts_length_mono (es : ℕ → ℕ × Event) (q : ℕ) {i k : ℕ} (hik : i ≤ k) :
    (attempts (history q (machine.trace es i))).length ≤
      (attempts (history q (machine.trace es k))).length := by
  obtain ⟨out, hout⟩ : machine.trace es i <+: machine.trace es k := machine.trace_mono hik
  rw [← hout, history_append, attempts_append, List.length_append]
  exact Nat.le_add_right _ _

theorem attempts_length_succ (es : ℕ → ℕ × Event) (q k : ℕ) :
    (attempts (history q (machine.trace es (k + 1)))).length =
      (attempts (history q (machine.trace es k))).length +
        (attempts (history q (machine.emitted es k))).length := by
  rw [Machine.trace_succ, history_append, attempts_append, List.length_append]

/-- A report of ambiguity follows an indeterminate answer or is made by a disconnect. -/
theorem ambiguous_emitted (hlive : (machine.state es k).live = true) {r : SubmitResult}
    {error : Option String} (hmem : .reported r error ∈ machine.emitted es k)
    (hamb : r.outcome = .ambiguous) :
    (∃ id data, Delivered es r.seq (k + 1) id data ∧ (decision id data).answer = .indeterminate) ∨
      (es k).2 = .disconnect ∧ reports (history r.seq (machine.trace es k)) = [] := by
  have h := reachable_consistent es k hlive
  change _ ∈ (step (machine.state es k) (es k)).2 at hmem
  cases hevent : (es k).2 with
  | response id data =>
      by_cases hid : id ∈ (machine.state es k).answered
      · simp [step, hlive, hevent, hid] at hmem
      · have hout : (step (machine.state es k) (es k)).2 = (onHttpData
            ((machine.state es k).now + (es k).1) id data (machine.state es k).client).2 := by
          simp [step, hlive, hevent, hid]
        rw [hout] at hmem
        obtain ⟨p, hfind, hseq, hbad⟩ := reported_onHttpData hmem hamb
        rcases hbad with hbefore | hnow
        · have hans := (h.opened id p hfind).1.indeterminate.mp hbefore
          rw [hseq, mem_answers hlive] at hans
          obtain ⟨id', data', ⟨i, hi, hdelivered⟩, hind⟩ := hans
          exact Or.inl ⟨id', data', ⟨i, hi.trans (Nat.lt_succ_self k), hdelivered⟩, hind⟩
        · exact Or.inl ⟨id, data, ⟨k, Nat.lt_succ_self k, hevent,
            (outstanding_iff hlive r.seq id).mpr ⟨hid, p, hfind, hseq⟩⟩, hnow⟩
  | disconnect =>
      have hout : (step (machine.state es k) (es k)).2 =
          (disconnect (machine.state es k).client).2 := by simp [step, hlive, hevent]
      rw [hout] at hmem
      obtain ⟨id, p, hfind, hseq⟩ := reported_disconnect.mp ⟨r, error, hmem, rfl⟩
      exact Or.inr ⟨rfl, hseq ▸ (h.opened id p hfind).1.unreported⟩
  | submit block => cases block <;> simp [step, hlive, hevent, submit] at hmem
  | tick =>
      obtain ⟨seq, id, blob, h⟩ := of_mem_tick (by simpa [step, hlive, hevent] using hmem)
      cases h
  | destroy => simp [step, hlive, hevent] at hmem
  | otherRequests count => simp [step, hlive, hevent] at hmem

/-- Attempts start when a block is submitted or at a tick. -/
theorem attempt_emitted (hlive : (machine.state es k).live = true) {q : ℕ} {a : Attempt}
    (ha : a ∈ attempts (history q (machine.emitted es k))) :
    ∀ id data, (es k).2 ≠ .response id data := by
  intro id data hevent
  rw [mem_attempts] at ha
  change _ ∈ (step (machine.state es k) (es k)).2 at ha
  by_cases hid : id ∈ (machine.state es k).answered
  · simp [step, hlive, hevent, hid] at ha
  · have hout : (step (machine.state es k) (es k)).2 = (onHttpData
        ((machine.state es k).now + (es k).1) id data (machine.state es k).client).2 := by
      simp [step, hlive, hevent, hid]
    rw [hout] at ha
    exact attempt_not_mem_onHttpData id data ha

/-- A submission that was answered stays as it is until it is started again or reported. -/
theorem pending_kept (hlive : (machine.state es (k + 1)).live = true) {id : ℕ}
    {p : PendingSubmission} (hid : id ∈ (machine.state es k).answered)
    (hfind : (machine.state es k).client.pendingSubmissions.find id = some p)
    (hunreported : reports (history p.result.seq (machine.trace es (k + 1))) = [])
    (hnone : attempts (history p.result.seq (machine.emitted es k)) = []) :
    (machine.state es (k + 1)).client.pendingSubmissions.find id = some p := by
  have hlive' := step_live hlive
  have h := reachable_consistent es k hlive'
  have hlt := (h.ids id p hfind).1
  have hnotReported : ∀ r error, .reported r error ∈ machine.emitted es k →
      r.seq ≠ p.result.seq := by
    intro r error hmem hseq
    have hreport : r ∈ reports (history p.result.seq (machine.trace es (k + 1))) :=
      mem_reports.mpr ⟨hseq, error, List.mem_append_right _ hmem⟩
    rw [hunreported] at hreport
    exact List.not_mem_nil hreport
  rw [Machine.state_succ] at hlive ⊢
  change (step (machine.state es k) (es k)).1.live = true at hlive
  change (step (machine.state es k) (es k)).1.client.pendingSubmissions.find id = some p
  have hemitted : machine.emitted es k = (step (machine.state es k) (es k)).2 := rfl
  rw [hemitted] at hnone hnotReported
  generalize machine.state es k = sys at hid hfind hlive hlive' hlt hnone hnotReported
  generalize es k = e at hlive hnone hnotReported
  obtain ⟨elapsed, event⟩ := e
  cases event with
  | submit block =>
      cases block with
      | none => simpa [step, hlive', submit] using hfind
      | some block =>
          have hclient : (step sys (elapsed, .submit (some block))).1.client =
              (submit (sys.now + elapsed) (some block) sys.client).2.1 := by
            simp [step, hlive']
          rw [hclient]
          unfold submit
          dsimp only
          rw [Table.find_insert_of_ne _ hlt.ne, hfind]
  | response rpcId data =>
      by_cases hrpc : rpcId ∈ sys.answered
      · simpa [step, hlive', hrpc] using hfind
      · have hclient : (step sys (elapsed, .response rpcId data)).1.client =
            (onHttpData (sys.now + elapsed) rpcId data sys.client).1 := by
          simp [step, hlive', hrpc]
        have hne : id ≠ rpcId := by
          rintro rfl
          exact hrpc hid
        rw [hclient, find_onHttpData_of_ne hne, hfind]
  | tick =>
      have hspec := tick_spec (sys.now + elapsed) hlt hfind
      split at hspec
      · obtain ⟨newId, hmem⟩ := hspec
        have hstarted : (⟨newId, p.blockBlob, sys.now + elapsed⟩ : Attempt) ∈
            attempts (history p.result.seq (step sys (elapsed, .tick)).2) :=
          mem_attempts.mpr (by simpa [step, hlive'] using hmem)
        rw [hnone] at hstarted
        exact absurd hstarted List.not_mem_nil
      · simpa [step, hlive'] using hspec
  | disconnect =>
      obtain ⟨r, error, hmem, hseq⟩ := reported_disconnect.mpr ⟨id, p, hfind, rfl⟩
      exact absurd hseq (hnotReported r error (by simpa [step, hlive'] using hmem))
  | destroy => simp [step, hlive'] at hlive
  | otherRequests count => simpa [step, hlive'] using hfind

/-- What is answered without an OK is started again, or reported. -/
theorem retried (hlive : (machine.state es k).live = true) {q i id : ℕ} {data : HttpData}
    (hik : i < k) (hresponse : (es i).2 = .response id data) (hout : Outstanding es q i id)
    (hok : ¬ SaysOk id data) (htick : (es k).2 = .tick)
    (hdue : (machine.state es (i + 1)).now + retryDelayMs ≤ (machine.state es k).now + (es k).1)
    (hunreported : reports (history q (machine.trace es k)) = []) :
    (attempts (history q (machine.trace es i))).length <
      (attempts (history q (machine.trace es (k + 1)))).length := by
  have hliveAt : ∀ m ≤ k, (machine.state es m).live = true := fun m hm => live_of_le hm hlive
  by_contra hfew
  have hnone : ∀ m, i ≤ m → m ≤ k → attempts (history q (machine.emitted es m)) = [] := by
    intro m him hmk
    have h1 := attempts_length_mono es q him
    have h2 := attempts_length_succ es q m
    have h3 := attempts_length_mono es q (Nat.add_le_add_right hmk 1)
    exact List.length_eq_zero_iff.mp (by omega)
  obtain ⟨hid, p, hfind, rfl⟩ := (outstanding_iff (hliveAt i hik.le) q id).mp hout
  have hrefused := refused_onHttpData ((machine.state es i).now + (es i).1) hfind
    (mt (answer_ok_iff id data).mp hok)
  have hstep : (step (machine.state es i) (es i)).1.client = (onHttpData
        ((machine.state es i).now + (es i).1) id data (machine.state es i).client).1 ∧
      (step (machine.state es i) (es i)).2 = (onHttpData
        ((machine.state es i).now + (es i).1) id data (machine.state es i).client).2 ∧
      (step (machine.state es i) (es i)).1.now = (machine.state es i).now + (es i).1 ∧
      id ∈ (step (machine.state es i) (es i)).1.answered := by
    simp [step, hliveAt i hik.le, hresponse, hid]
  obtain ⟨hclient, hemitted, hnow, hanswered⟩ := hstep
  by_cases hroom : p.attempts < maxSubmitAttempts
  · obtain ⟨p', hfind', hresult, hattempts, hretry⟩ := hrefused.1 hroom
    rw [← hclient] at hfind'
    have hnext : id ∈ (machine.state es (i + 1)).answered ∧
        (machine.state es (i + 1)).client.pendingSubmissions.find id = some p' :=
      ⟨hanswered, hfind'⟩
    have hkept := Machine.persists
      (P := fun sys : System =>
        id ∈ sys.answered ∧ sys.client.pendingSubmissions.find id = some p')
      (Nat.succ_le_of_lt hik) hnext fun m him hmk h => by
        refine ⟨?_, ?_⟩
        · exact (answered_step (hliveAt m hmk.le) id).mpr (Or.inl h.1)
        · exact pending_kept (hliveAt (m + 1) hmk) h.1 h.2
            (by rw [hresult]; exact reports_nil_of_le hmk hunreported)
            (by rw [hresult]; exact hnone m (by omega) hmk.le)
    have hlt := ((reachable_consistent es k hlive).ids id p' hkept.2).1
    have hspec := tick_spec ((machine.state es k).now + (es k).1) hlt hkept.2
    have hready : Due ((machine.state es k).now + (es k).1) p' := by
      rw [Machine.state_succ] at hdue
      change (step (machine.state es i) (es i)).1.now + retryDelayMs ≤ _ at hdue
      rw [hnow] at hdue
      refine ⟨?_, hretry ▸ hdue, hattempts ▸ hroom⟩
      rw [hretry, retryDelayMs]
      omega
    rw [if_pos hready] at hspec
    obtain ⟨newId, hmem⟩ := hspec
    have hstarted : (⟨newId, p'.blockBlob, (machine.state es k).now + (es k).1⟩ : Attempt) ∈
        attempts (history p.result.seq (machine.emitted es k)) := by
      rw [mem_attempts, ← hresult]
      change _ ∈ (step (machine.state es k) (es k)).2
      simpa [step, hlive, htick] using hmem
    rw [hnone k hik.le le_rfl] at hstarted
    exact List.not_mem_nil hstarted
  · obtain ⟨r, error, hmem, hseq⟩ := hrefused.2 hroom
    rw [← hemitted] at hmem
    have hreport : r ∈ reports (history p.result.seq (machine.trace es k)) :=
      mem_reports.mpr ⟨hseq, error, (Machine.mem_trace machine).mpr ⟨i, hik, hmem⟩⟩
    rw [hunreported] at hreport
    exact List.not_mem_nil hreport

end Runs

section Laws

variable {es : ℕ → ℕ × Event} {j k : ℕ}

/-- The id that the `submit` of step `j` returns. -/
def issuedId (es : ℕ → ℕ × Event) (j : ℕ) : ℕ := (machine.state es j).client.sequence

/-- The history, up to step `k`, of the submission made at step `j`. -/
def historyOf (es : ℕ → ℕ × Event) (j k : ℕ) : List Output :=
  history (issuedId es j) (machine.trace es k)

def IsPending (es : ℕ → ℕ × Event) (j k : ℕ) : Prop :=
  ∃ id p, (machine.state es k).client.pendingSubmissions.find id = some p ∧
    p.result.seq = issuedId es j

/-- What the outcome of the submission `q` says about the responses that were delivered to it. -/
structure Resolved (es : ℕ → ℕ × Event) (q k : ℕ) (outcome : SubmitOutcome) : Prop where
  accepted_iff : outcome = .accepted ↔ ∃ id data, Delivered es q k id data ∧ SaysOk id data
  rejected_only : outcome = .rejected → ∀ a ∈ attempts (history q (machine.trace es k)),
    ∃ data, Delivered es q k a.id data ∧ SaysRejected a.id data
  ambiguous_only : outcome = .ambiguous →
    (∃ id data, Delivered es q k id data ∧ ¬ SaysOk id data ∧ ¬ SaysRejected id data) ∨
      ∃ i < k, (es i).2 = .disconnect ∧ reports (history q (machine.trace es i)) = []
  specified : outcome ≠ .unspecified

/-- The state machine of one block submission, accepted at step `j` and seen at step `k`. -/
structure Laws (es : ℕ → ℕ × Event) (j k : ℕ) (block : Block) : Prop where
  returned : (submit ((machine.state es j).now + (es j).1) (some block)
    (machine.state es j).client).1 = some (issuedId es j)
  first_attempt : ∃ start, (⟨issuedId es j, block.blob, start⟩ : Attempt) ∈
    attempts (historyOf es j k)
  pending_or_reported :
    (IsPending es j k ∧ reports (historyOf es j k) = []) ∨
      (¬ IsPending es j k ∧ ∃ result, reports (historyOf es j k) = [result])
  same_blob : ∀ a ∈ attempts (historyOf es j k), a.blob = block.blob
  at_most_four : (attempts (historyOf es j k)).length ≤ 4
  spaced : (attempts (historyOf es j k)).Pairwise fun a b => a.start + 2000 ≤ b.start
  no_late_start : Along NoLateStart (historyOf es j k)
  unresolved_at_start : ∀ i < k, attempts (history (issuedId es j) (machine.emitted es i)) ≠ [] →
    (∀ id data, Delivered es (issuedId es j) (i + 1) id data → ¬ SaysOk id data) ∧
      reports (historyOf es j i) = []
  retried : ∀ i < k, ∀ id data, (es i).2 = .response id data →
    Outstanding es (issuedId es j) i id → ¬ SaysOk id data → (es k).2 = .tick →
    (machine.state es (i + 1)).now + 2000 ≤ (machine.state es k).now + (es k).1 →
    reports (historyOf es j k) = [] →
      (attempts (historyOf es j i)).length < (attempts (historyOf es j (k + 1))).length
  resolved : ∀ result ∈ reports (historyOf es j k),
    Resolved es (issuedId es j) k result.outcome
  ok_reported : ∀ id data, Delivered es (issuedId es j) k id data → SaysOk id data →
    reports (historyOf es j k) ≠ []
  disconnected : (es k).2 = .disconnect → reports (historyOf es j k) = [] →
    ∃ result, reports (historyOf es j (k + 1)) = [result] ∧ result.outcome = .ambiguous
  unknown_response : ∀ id data, (es k).2 = .response id data →
    (∀ q, ¬ Outstanding es q k id) →
      (machine.state es (k + 1)).client = (machine.state es k).client ∧ machine.emitted es k = []

theorem first_attempt_observed {block : Block} (hjk : j < k)
    (hlive : (machine.state es j).live = true) (hsubmit : (es j).2 = .submit (some block)) :
    ∃ start, .attempt (issuedId es j) (issuedId es j) block.blob start ∈ historyOf es j k := by
  refine ⟨(machine.state es j).now + (es j).1, List.mem_filter.mpr ⟨?_, by simp [seqOf]⟩⟩
  refine (Machine.mem_trace machine).mpr ⟨j, hjk, ?_⟩
  change _ ∈ (step (machine.state es j) (es j)).2
  simp [step, hlive, hsubmit, submit, issuedId]

/-- An attempt that the client counts as rejected got a rejection. -/
theorem rejection_delivered (hlive : (machine.state es k).live = true) {q : ℕ} {a : Attempt}
    (ha : ReturnedTo a (history q (machine.trace es k)))
    (hall : ∀ answer ∈ answers (history q (machine.trace es k)), answer = .rejected) :
    ∃ data, Delivered es q k a.id data ∧ SaysRejected a.id data := by
  obtain ⟨seq, answer, hmem⟩ := ha
  have hrejected := hall answer (List.mem_filterMap.mpr ⟨_, hmem, rfl⟩)
  obtain ⟨hin, hseq⟩ := List.mem_filter.mp hmem
  obtain rfl : seq = q := of_decide_eq_true hseq
  obtain ⟨i, hi, hemitted⟩ := (Machine.mem_trace machine).mp hin
  obtain ⟨data, hdata, hout, hanswer⟩ := (returned_emitted (live_of_le hi.le hlive)).mp hemitted
  exact ⟨data, ⟨i, hi, hdata, hout⟩, (answer_rejected_iff a.id data).mp (hanswer ▸ hrejected)⟩

theorem Delivered.of_succ {q id : ℕ} {data : HttpData} (h : Delivered es q (k + 1) id data)
    (hne : (es k).2 ≠ .response id data) : Delivered es q k id data := by
  obtain ⟨i, hi, hdata, hout⟩ := h
  rcases Nat.lt_succ_iff_lt_or_eq.mp hi with hi | rfl
  · exact ⟨i, hi, hdata, hout⟩
  · exact absurd hdata hne

theorem Delivered.mono {q id i : ℕ} {data : HttpData} (h : Delivered es q i id data) (hik : i ≤ k) :
    Delivered es q k id data := by
  obtain ⟨m, hm, hrest⟩ := h
  exact ⟨m, hm.trans_le hik, hrest⟩

/-- The outcome of a closed history in terms of what was delivered. -/
theorem resolved_of_verdict (hlive : (machine.state es k).live = true) {q : ℕ}
    {result : SubmitResult} (hreport : result ∈ reports (history q (machine.trace es k)))
    (hverdict : Verdict result.outcome (history q (machine.trace es k))) :
    Resolved es q k result.outcome := by
  refine ⟨?_, fun hrej a ha => ?_, fun hamb => ?_, hverdict.specified⟩
  · rw [hverdict.accepted_iff, mem_answers hlive]
    simp only [answer_ok_iff]
  · obtain ⟨hreturned, hall⟩ := hverdict.rejected_only hrej
    exact rejection_delivered hlive (hreturned a ha) hall
  · obtain ⟨rfl, error, hmem⟩ := mem_reports.mp hreport
    obtain ⟨i, hi, hemitted⟩ := (Machine.mem_trace machine).mp hmem
    rcases ambiguous_emitted (live_of_le hi.le hlive) hemitted hamb with h | ⟨hdisc, hnone⟩
    · obtain ⟨id, data, hdelivered, hind⟩ := h
      refine Or.inl ⟨id, data, hdelivered.mono hi, fun hok => ?_, fun hrej => ?_⟩
      · rw [(answer_ok_iff id data).mpr hok] at hind
        cases hind
      · rw [(answer_rejected_iff id data).mpr hrej] at hind
        cases hind
    · exact Or.inr ⟨i, hi, hdisc, hnone⟩

/-- While an attempt starts, nothing has resolved the submission. -/
theorem unresolved_of_start (hlive : (machine.state es k).live = true) {q i : ℕ} (hik : i < k)
    (hlate : Along NoLateStart (history q (machine.trace es k)))
    (hstart : attempts (history q (machine.emitted es i)) ≠ []) :
    (∀ id data, Delivered es q (i + 1) id data → ¬ SaysOk id data) ∧
      reports (history q (machine.trace es i)) = [] := by
  obtain ⟨a, ha⟩ := List.exists_mem_of_ne_nil _ hstart
  have hattempt : .attempt q a.id a.blob a.start ∈ history q (machine.emitted es i) :=
    List.mem_filter.mpr ⟨mem_attempts.mp ha, decide_eq_true rfl⟩
  obtain ⟨before, after, hsplit⟩ := List.append_of_mem hattempt
  obtain ⟨rest, hrest⟩ : machine.trace es (i + 1) <+: machine.trace es k :=
    machine.trace_mono hik
  have hwhole : history q (machine.trace es k) =
      (history q (machine.trace es i) ++ before) ++
        .attempt q a.id a.blob a.start :: (after ++ history q rest) := by
    rw [← hrest, Machine.trace_succ, history_append, history_append, hsplit]
    simp
  obtain ⟨hok, hreports⟩ := hlate _ _ _ hwhole
  have hnotOk : .ok ∉ answers (history q (machine.trace es i)) := by
    intro hmem
    apply hok
    unfold answers at hmem ⊢
    rw [List.filterMap_append]
    exact List.mem_append_left _ hmem
  refine ⟨fun id data hdelivered hsays => ?_, ?_⟩
  · have hlive' := live_of_le hik.le hlive
    have hbefore := hdelivered.of_succ (attempt_emitted hlive' ha id data)
    exact hnotOk ((mem_answers hlive' q .ok).mpr
      ⟨id, data, hbefore, (answer_ok_iff id data).mpr hsays⟩)
  · rw [reports_append] at hreports
    exact (List.append_eq_nil_iff.mp hreports).1

theorem unknown_ignored (hlive : (machine.state es k).live = true) {id : ℕ} {data : HttpData}
    (hresponse : (es k).2 = .response id data) (hunknown : ∀ q, ¬ Outstanding es q k id) :
    (machine.state es (k + 1)).client = (machine.state es k).client ∧
      machine.emitted es k = [] := by
  rw [Machine.state_succ]
  change (step (machine.state es k) (es k)).1.client = _ ∧ (step (machine.state es k) (es k)).2 = []
  by_cases hid : id ∈ (machine.state es k).answered
  · simp [step, hlive, hresponse, hid]
  · have hnone : (machine.state es k).client.pendingSubmissions.find id = none := by
      cases hfind : (machine.state es k).client.pendingSubmissions.find id with
      | none => rfl
      | some p =>
          exact absurd ((outstanding_iff hlive p.result.seq id).mpr ⟨hid, p, hfind, rfl⟩)
            (hunknown _)
    simp [step, hlive, hresponse, hid, onHttpData, hnone]

/-- A submission is in the table until its history is closed by the report. -/
theorem pending_or_closed {block : Block} (hjk : j < k)
    (hlive : (machine.state es k).live = true) (hsubmit : (es j).2 = .submit (some block)) :
    (IsPending es j k ∧ ∃ p, Open (historyOf es j k) p) ∨
      (¬ IsPending es j k ∧ Closed (historyOf es j k)) := by
  have h := reachable_consistent es k hlive
  obtain ⟨start, hfirst⟩ := first_attempt_observed hjk (live_of_le hjk.le hlive) hsubmit
  by_cases hp : IsPending es j k
  · obtain ⟨id, p, hfind, hseq⟩ := hp
    exact Or.inl ⟨⟨id, p, hfind, hseq⟩, p, by
      have := (h.opened id p hfind).1
      rwa [hseq] at this⟩
  · rcases h.closed (issuedId es j) (List.ne_nil_of_mem hfirst) with hpending | hclosed
    · exact absurd hpending hp
    · exact Or.inr ⟨hp, hclosed⟩

/-- A disconnect reports what is not reported yet. -/
theorem disconnect_reports {block : Block} (hjk : j < k)
    (hlive : (machine.state es k).live = true) (hsubmit : (es j).2 = .submit (some block))
    (hdisc : (es k).2 = .disconnect) (hunreported : reports (historyOf es j k) = []) :
    ∃ result, reports (historyOf es j (k + 1)) = [result] ∧ result.outcome = .ambiguous := by
  have hemitted : machine.emitted es k = (disconnect (machine.state es k).client).2 := by
    change (step (machine.state es k) (es k)).2 = _
    simp [step, hlive, hdisc]
  have hlive' : (machine.state es (k + 1)).live = true := by
    rw [Machine.state_succ]
    change (step (machine.state es k) (es k)).1.live = true
    simp [step, hlive, hdisc]
  have hambiguous : ∀ r ∈ reports (historyOf es j (k + 1)), r.outcome = .ambiguous := by
    intro r hr
    unfold historyOf at hr hunreported
    rw [Machine.trace_succ, history_append, reports_append, hunreported, List.nil_append,
      mem_reports, hemitted] at hr
    obtain ⟨-, error, hmem⟩ := hr
    obtain ⟨r', error', heq, hamb⟩ := of_mem_disconnect hmem
    obtain ⟨rfl, -⟩ := Output.reported.inj heq
    exact hamb
  rcases pending_or_closed hjk hlive hsubmit with ⟨⟨id, p, hfind, hseq⟩, -⟩ | ⟨-, hclosed⟩
  · obtain ⟨r, error, hmem, hrseq⟩ := reported_disconnect.mpr ⟨id, p, hfind, hseq⟩
    have hreport : r ∈ reports (historyOf es j (k + 1)) :=
      mem_reports.mpr ⟨hrseq, error, List.mem_append_right _ (hemitted ▸ hmem)⟩
    rcases pending_or_closed (hjk.trans (Nat.lt_succ_self k)) hlive' hsubmit with
      ⟨-, p', hopen⟩ | ⟨-, hclosed⟩
    · rw [hopen.unreported] at hreport
      exact absurd hreport List.not_mem_nil
    · obtain ⟨result, hone, -⟩ := hclosed.reported
      exact ⟨result, hone, hambiguous result (hone ▸ List.mem_singleton_self _)⟩
  · obtain ⟨result, hone, -⟩ := hclosed.reported
    rw [hunreported] at hone
    cases hone

theorem block_submission_laws (es : ℕ → ℕ × Event) (j k : ℕ) (block : Block) (hjk : j < k)
    (hlive : (machine.state es k).live = true) (hsubmit : (es j).2 = .submit (some block)) :
    Laws es j k block := by
  obtain ⟨start, hfirst⟩ := first_attempt_observed hjk (live_of_le hjk.le hlive) hsubmit
  have hmem : (⟨issuedId es j, block.blob, start⟩ : Attempt) ∈ attempts (historyOf es j k) :=
    List.mem_filterMap.mpr ⟨_, hfirst, rfl⟩
  have hretried := fun i hi id (data : HttpData) hresponse
      (hout : Outstanding es (issuedId es j) i id) (hok : ¬ SaysOk id data)
        htick hdue hunreported =>
    retried hlive hi hresponse hout hok htick hdue hunreported
  have hdisconnected := fun hdisc => disconnect_reports hjk hlive hsubmit hdisc
  rcases pending_or_closed hjk hlive hsubmit with ⟨hp, p, ho⟩ | ⟨hp, hc⟩
  · have hblob := ho.blob _ hmem
    refine ⟨rfl, ⟨start, hmem⟩, Or.inl ⟨hp, ho.unreported⟩, fun a ha => ?_, ?_, ho.spaced,
      ho.noLateStart, fun i hi => unresolved_of_start hlive hi ho.noLateStart, hretried,
      fun result hr => ?_, fun id data hdelivered hok => ?_, hdisconnected,
      fun id data => unknown_ignored hlive⟩
    · exact (ho.blob a ha).trans hblob.symm
    · exact ho.count ▸ ho.bounds.2
    · rw [ho.unreported] at hr
      cases hr
    · exact absurd ((mem_answers hlive (issuedId es j) .ok).mpr
        ⟨id, data, hdelivered, (answer_ok_iff id data).mpr hok⟩) ho.noOk
  · obtain ⟨result, hrep, hverdict⟩ := hc.reported
    refine ⟨rfl, ⟨start, hmem⟩, Or.inr ⟨hp, result, hrep⟩, fun a ha => hc.blob a ha _ hmem,
      hc.bounds, hc.spaced, hc.noLateStart,
      fun i hi => unresolved_of_start hlive hi hc.noLateStart, hretried, fun r hr => ?_,
      fun id data _ _ => ?_, hdisconnected, fun id data => unknown_ignored hlive⟩
    · apply resolved_of_verdict hlive hr
      rw [hrep] at hr
      exact List.mem_singleton.mp hr ▸ hverdict
    · rw [hrep]
      exact List.cons_ne_nil _ _

def minedBlock : Block where
  blob := "0c0c"
  result := { seq := 0, diff := 1000, actualDiff := 1200, reqId := 7, shareId := 3,
              jobId := "1a", templateGeneration := 5, height := 3000000, entropy := "",
              templateSourceId := 1, minerDiff := 100 }

/-- The first attempt gets no usable response, the second one is accepted. -/
def acceptedOnRetry : ℕ → ℕ × Event
  | 0 => (0, .submit (some minedBlock))
  | 1 => (10, .response 1 { status := 503, body := .error "" })
  | 2 => (2000, .tick)
  | 3 => (5, .response 2 { status := 200, body := .ok (.obj [("id", .int 2),
      ("result", .obj [("status", .str "OK")])]) })
  | _ => (1000, .tick)

theorem block_submission_laws_on_retry :
    (reports (historyOf acceptedOnRetry 0 4)).map SubmitResult.outcome = [.accepted] ∧
      Laws acceptedOnRetry 0 4 minedBlock :=
  ⟨by decide +kernel,
    block_submission_laws acceptedOnRetry 0 4 minedBlock (by decide) (by decide +kernel) rfl⟩

end Laws

end XmrigProxy.SubmissionLaws
