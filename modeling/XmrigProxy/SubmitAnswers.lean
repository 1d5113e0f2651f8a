import XmrigProxy.ResultDelivery
import XmrigProxy.ShareVerification

/-! Every submission that reaches a mapper leaves with an error, or is followed until its answer. -/
namespace XmrigProxy

namespace MapperView

variable {σ ε ω : Type} {v : MapperView ε ω} {M : Machine σ ε ω} {es : ℕ → ε} {k : ℕ} {seq : ℤ}

/-- Replies are counted by the answers that clients deliver, of which there is one at most. -/
theorem replies_le_one {ops : ℕ → PoolClients.Operation}
    (h : ∀ i < k, v.repliesTo seq (M.emitted es i) = 0 ∨
      v.repliesTo seq (M.emitted es i) = 1 ∧ ∃ c requestId,
        PoolClients.Delivered ops i c seq requestId) :
    ∑ i ∈ Finset.range k, v.repliesTo seq (M.emitted es i) ≤ 1 := by
  by_cases hreply : ∃ i < k, v.repliesTo seq (M.emitted es i) ≠ 0
  · obtain ⟨i, hik, hi⟩ := hreply
    obtain ⟨hone, c, requestId, hdelivered⟩ := (h i hik).resolve_left hi
    rw [Finset.sum_eq_single i]
    · exact hone.le
    · intro j hj hne
      rcases h j (Finset.mem_range.mp hj) with hzero | ⟨-, c', requestId', hdelivered'⟩
      · exact hzero
      · exact absurd (hdelivered'.unique hdelivered) hne
    · intro hnot
      exact absurd (Finset.mem_range.mpr hik) hnot
  · rw [Finset.sum_eq_zero]
    · exact Nat.zero_le 1
    · intro i hi
      by_contra hne
      exact hreply ⟨i, Finset.mem_range.mp hi, hne⟩

/-- Every error of a mapper is one that a submission is answered with. -/
def ErrorsAnswerable (v : MapperView ε ω) (M : Machine σ ε ω) (es : ℕ → ε) : Prop :=
  ∀ j, ∀ o ∈ M.emitted es j, ∀ event, v.finished o = some event →
    ∃ answer : ShareVerification.Answer, answer.error = event.error

end MapperView

namespace UpstreamMapper

variable {σ : Type} {kind : Kind σ} {config : DonateStrategy.Config} {mapper : State σ}
  {es : ℕ → Event} {i j k : ℕ} {miner : MinerId} {requestId seq : ℤ}

theorem checkSubmit_error {ops : MinerStorage σ} {event : SubmitEvent} {s : State σ} {error : Error}
    (h : checkSubmit ops event s = .error error) :
    ∃ answer : ShareVerification.Answer, answer ≠ .accepted ∧ answer.error = error := by
  unfold checkSubmit at h
  split at h
  · cases h
    exact ⟨.badGateway, by decide, rfl⟩
  · split at h
    · cases h
      exact ⟨.invalidJobId, by decide, rfl⟩
    · split at h
      · cases h
        exact ⟨.incorrectAlgorithm, by decide, rfl⟩
      · cases h

/-- How a submission leaves. -/
theorem finished_cases (hkind : LawfulKind kind) {o : Output} {event : SubmitEvent}
    (ho : o ∈ (machine kind config mapper).emitted es j) (hview : view.finished o = some event) :
    (∃ answer : ShareVerification.Answer, answer ≠ .accepted ∧ answer.error = event.error) ∨
      event.error = .NoError ∧ ∃ client written,
        es j = .submit event.miner event.request client written ∧
        (∃ checked, checkSubmit kind.ops ⟨event.miner, event.request, .NoError⟩
          ((machine kind config mapper).state es j).mapper = .ok checked) ∧
        view.Submits (machine kind config mapper) es j event.miner event.request.id
          (PoolClients.returned (reports kind config mapper es j)) := by
  cases (step_case hkind es j : StepCase kind config mapper es j _ _ _) with
  | rejected _ _ _ _ _ _ checked _ emitted =>
      rw [emitted] at ho
      cases List.mem_singleton.mp ho
      cases hview
      exact Or.inl (checkSubmit_error checked)
  | forwarded miner request client written checked hevent accepted _ emitted =>
      have hsubmits := submits_of_mem (emitted ▸ List.mem_cons_self)
      rw [checkSubmit_id accepted] at hsubmits
      rw [emitted] at ho
      rcases List.mem_pair.mp ho with rfl | rfl
      · cases hview
      · cases hview
        exact Or.inr ⟨rfl, client, written, hevent, ⟨checked, accepted⟩, hsubmits⟩
  | answered _ toDonate seq _ error _ _ _ emitted =>
      rw [emitted] at ho
      rcases onResultAccepted_cases kind.ops toDonate seq error
        ((machine kind config mapper).state es j).mapper with ⟨-, heq⟩ | ⟨ctx, -, heq⟩
      · rw [heq] at ho
        cases List.mem_singleton.mp ho
        cases hview
      · rw [heq] at ho
        rcases List.mem_cons.mp ho with rfl | ho
        · cases hview
        · obtain ⟨m, -, rfl⟩ := List.mem_map.mp ho
          cases hview
  | inert _ silent _ _ =>
      rw [(view_of_quiet (silent o ho)).2.1] at hview
      cases hview

/-- A step replies to a result once, if its client delivers it. -/
theorem repliesTo_cases (hkind : LawfulKind kind) (seq : ℤ) (i : ℕ) :
    view.repliesTo seq ((machine kind config mapper).emitted es i) = 0 ∨
      view.repliesTo seq ((machine kind config mapper).emitted es i) = 1 ∧
        ∃ c requestId, PoolClients.Delivered (operations kind config mapper es)
          i c seq requestId := by
  unfold MapperView.repliesTo
  split
  · next hany =>
    by_cases hreply : ∃ o ∈ (machine kind config mapper).emitted es i, (view.reply o).isSome = true
    · obtain ⟨o, ho, hsome⟩ := hreply
      obtain ⟨client, toDonate, seq', requestId, error, ctx, hdelivered, -, -, hout⟩ :=
        credit_cases hkind ho (Or.inr hsome)
      rw [hout] at hany ⊢
      have hseq : seq' = seq := by simpa [view] using hany
      exact Or.inr ⟨rfl, client, requestId, hseq ▸ hdelivered⟩
    · left
      rw [List.length_eq_zero_iff, List.filterMap_eq_nil_iff]
      intro o ho
      by_contra hsome
      exact hreply ⟨o, ho, Option.isSome_iff_ne_none.mpr hsome⟩
  · exact Or.inl rfl

theorem Refuses.submits {s : System σ} {e : Event} (h : Refuses kind s e) :
    ∃ miner request client written checked, e = .submit miner request client written ∧
      checkSubmit kind.ops ⟨miner, request, .NoError⟩ s.mapper = .ok checked := by
  cases e with
  | submit miner request client written =>
      obtain ⟨⟨checked, hchecked⟩, -⟩ := h
      exact ⟨miner, request, client, written, checked, rfl, hchecked⟩
  | _ => cases h

/-- Every request leaves once. A refused one leaves as if it had been taken, under the id `-1`. -/
theorem finished_of_asked {request : JobResult} {client : Option ℕ} {written : Bool}
    (hevent : es j = .submit miner request client written) :
    ((machine kind config mapper).emitted es j).filterMap view.finished =
      [⟨miner, request, match checkSubmit kind.ops ⟨miner, request, .NoError⟩
        ((machine kind config mapper).state es j).mapper with
        | .error error => error
        | .ok _ => .NoError⟩] := by
  change ((Served.machine (operation kind) (react kind config) mapper).emitted es j).filterMap _ = _
  rw [Served.emitted_eq, hevent]
  change ((submit kind.ops ⟨miner, request, .NoError⟩ _
    ((machine kind config mapper).state es j).mapper).2).filterMap view.finished = _
  cases hchecked : checkSubmit kind.ops ⟨miner, request, .NoError⟩
      ((machine kind config mapper).state es j).mapper with
  | error error =>
      simp only [submit, hchecked]
      rfl
  | ok checked =>
      simp only [submit, hchecked]
      rfl

theorem of_asks {e : Event} {request : JobResult} (h : view.asks e = some (miner, request)) :
    ∃ client written, e = .submit miner request client written := by
  cases e with
  | submit miner' request' client written =>
      cases h
      exact ⟨client, written, rfl⟩
  | _ => cases h

/-- The table and the answers of a shared mapper are sound as long as its clients refuse nothing. -/
theorem fulfilled_iff (hkind : LawfulKind kind) (hempty : mapper.results = ∅) (es : ℕ → Event)
    (k : ℕ) :
    (view.AnswersSubmissions (machine kind config mapper) es (fun _ _ => True) k ∧
      SoundTable kind config mapper es k) ↔
      ∀ j < k, ¬ Refuses kind ((machine kind config mapper).state es j) (es j) := by
  constructor
  · rintro ⟨hanswers, -⟩ j hj hrefuses
    obtain ⟨miner, request, client, written, checked, hevent, hchecked⟩ := hrefuses.submits
    obtain ⟨error, hfinished, hanswered⟩ :=
      hanswers j hj miner request (by rw [hevent]; rfl) trivial
    rw [finished_of_asked hevent, hchecked] at hfinished
    cases hfinished
    rcases hanswered with herror | ⟨seq, hseq, hsubmits, -⟩
    · exact herror rfl
    · obtain ⟨_, _, _, checked', hevent', hchecked', -, rfl⟩ := submits_cases hkind hsubmits
      rcases returned_cases hevent' hchecked' with ⟨-, hreturned⟩ | ⟨hnot, -⟩
      · rw [hreturned] at hseq
        omega
      · exact hnot hrefuses
  · intro hnever
    have hnonneg : ∀ j < k, ∀ miner requestId seq,
        view.Submits (machine kind config mapper) es j miner requestId seq → 0 ≤ seq := by
      intro j hj miner requestId seq hsubmits
      obtain ⟨request, client, written, checked, hevent, hchecked, -, rfl⟩ :=
        submits_cases hkind hsubmits
      rcases returned_cases hevent hchecked with ⟨hrefuses, -⟩ | ⟨-, c, hassigned⟩
      · exact absurd hrefuses (hnever j hj)
      · exact hassigned.nonneg
    refine ⟨?_, ?_, ?_⟩
    · intro j hj miner request hasks _
      obtain ⟨client, written, hevent⟩ := of_asks hasks
      refine ⟨_, finished_of_asked hevent, ?_⟩
      have hleft : ((machine kind config mapper).emitted es j).filterMap view.finished = _ :=
        finished_of_asked hevent
      obtain ⟨o, ho, hview⟩ := List.mem_filterMap.mp (hleft ▸ List.mem_singleton_self _)
      rcases finished_cases hkind ho hview
          with ⟨answer, haccepted, herror⟩ | ⟨-, _, _, _, _, hsubmits⟩
      · left
        dsimp only at herror
        rw [← herror]
        cases answer <;> simp [ShareVerification.Answer.error] at haccepted ⊢
      · exact Or.inr ⟨_, hnonneg j hj _ _ _ hsubmits, hsubmits,
          MapperView.replies_le_one fun i _ => repliesTo_cases hkind _ i⟩
    · intro i hi seq ctx hfind
      obtain ⟨j, hj, hsubmits⟩ := result_submitted hkind hempty hfind
      have hseq : 0 ≤ seq := hnonneg j (by omega) _ _ _ hsubmits
      exact ⟨hseq, Submits.owns hkind hsubmits hseq hj⟩
    · intro j hj miner requestId seq hsubmits
      cases hfind : ((machine kind config mapper).state es j).mapper.results.find seq with
      | none => rfl
      | some ctx =>
          obtain ⟨i, hi, hearlier⟩ := result_submitted hkind hempty hfind
          have hseq : 0 ≤ seq := hnonneg j hj _ _ _ hsubmits
          obtain ⟨c, hassigned⟩ := Submits.assigned hkind hsubmits hseq
          obtain ⟨c', hassigned'⟩ := Submits.assigned hkind hearlier hseq
          have := hassigned.unique hassigned'
          omega

theorem errorsAnswerable (hkind : LawfulKind kind) (es : ℕ → Event) :
    view.ErrorsAnswerable (machine kind config mapper) es := by
  intro j o ho event hview
  rcases finished_cases hkind ho hview with ⟨answer, -, herror⟩ | ⟨herror, -⟩
  · exact ⟨answer, herror⟩
  · exact ⟨.accepted, herror.symm⟩

end UpstreamMapper

namespace SimpleMapper

variable {id : ℕ} {first : MinerId} {es : ℕ → ℕ × Event} {i j k : ℕ}

theorem checkSubmit_error {now : ℕ} {event : SubmitEvent} {s : State} {error : Error}
    (h : checkSubmit now event s = .error error) :
    ∃ answer : ShareVerification.Answer, answer ≠ .accepted ∧ answer.error = error := by
  unfold checkSubmit at h
  split at h
  · cases h
    exact ⟨.badGateway, by decide, rfl⟩
  · split at h
    · split at h
      · cases h
        exact ⟨.incorrectAlgorithm, by decide, rfl⟩
      · cases h
    · cases h
      exact ⟨.invalidJobId, by decide, rfl⟩

/-- How a submission leaves. -/
theorem finished_cases {o : Output} {event : SubmitEvent}
    (ho : o ∈ (machine id first).emitted es j) (hview : view.finished o = some event) :
    (∃ answer : ShareVerification.Answer, answer ≠ .accepted ∧ answer.error = event.error) ∨
      event.error = .NoError ∧ ∃ seq, 0 ≤ seq ∧
        view.Submits (machine id first) es j event.miner event.request.id seq := by
  cases step_case id first es j with
  | rejected _ _ _ _ _ _ _ checked _ emitted =>
      rw [emitted] at ho
      cases List.mem_singleton.mp ho
      cases hview
      exact Or.inl (checkSubmit_error checked)
  | forwarded now miner request client written strategy checked _ _ accepted _ emitted =>
      have hsubmits : view.Submits (machine id first) es j miner request.id
          (PoolClients.returned (reports id first es j)) := by
        refine ⟨.submitted strategy miner checked _, emitted ▸ List.mem_cons_self, ?_⟩
        rw [← show checked.id = request.id from checkSubmit_id accepted]
        rfl
      rw [emitted] at ho
      rcases List.mem_pair.mp ho with rfl | rfl
      · cases hview
      · split at hview
        · cases hview
          exact Or.inl ⟨.badGateway, by decide, rfl⟩
        · next hseq =>
          cases hview
          exact Or.inr ⟨rfl, _, not_lt.mp hseq, hsubmits⟩
  | answered _ _ seq _ requestId ambiguous error _ _ _ emitted =>
      rw [emitted] at ho
      dsimp only [onResultAccepted] at ho
      rcases List.mem_cons.mp ho with rfl | ho
      · cases hview
      · split at ho
        · cases ho
        · rcases List.mem_cons.mp ho with rfl | ho
          · cases hview
          · split at ho
            · cases ho
            · cases List.mem_singleton.mp ho
              cases hview
  | inert silent _ =>
      rw [(view_of_quiet (silent o ho)).2.1] at hview
      cases hview

theorem repliesTo_cases (seq : ℤ) (i : ℕ) :
    view.repliesTo seq ((machine id first).emitted es i) = 0 ∨
      view.repliesTo seq ((machine id first).emitted es i) = 1 ∧
        ∃ c requestId, PoolClients.Delivered (operations id first es) i c seq requestId := by
  unfold MapperView.repliesTo
  split
  · next hany =>
    by_cases hreply : ∃ o ∈ (machine id first).emitted es i, (view.reply o).isSome = true
    · obtain ⟨o, ho, hsome⟩ := hreply
      obtain ⟨client, seq', requestId, miner, ambiguous, error, hdelivered, -, hout⟩ :=
        credit_cases ho (Or.inr hsome)
      rw [hout] at hany ⊢
      cases ambiguous with
      | false =>
          have hseq : seq' = seq := by simpa [view] using hany
          exact Or.inr ⟨rfl, client, requestId, hseq ▸ hdelivered⟩
      | true =>
          have hseq : seq' = seq := by simpa [view] using hany
          exact Or.inr ⟨rfl, client, requestId, hseq ▸ hdelivered⟩
    · left
      rw [List.length_eq_zero_iff, List.filterMap_eq_nil_iff]
      intro o ho
      by_contra hsome
      exact hreply ⟨o, ho, Option.isSome_iff_ne_none.mpr hsome⟩
  · exact Or.inl rfl

/-- The miner of a mapper changes when it leaves and when the mapper is handed on. -/
theorem miner_react (reports : List PoolClients.Report) (e : ℕ × Event) (s : State)
    (miner : MinerId) : (react reports e s).1.miner = some miner ↔
      (e.2 = .reuse miner ∧ isReusable s = true) ∨
        (s.miner = some miner ∧ e.2 ≠ .remove miner) := by
  obtain ⟨now, event⟩ := e
  have hkept : ∀ s' : State, s'.miner = s.miner → (∀ m, event ≠ .reuse m) → event ≠ .remove miner →
      (s'.miner = some miner ↔ ((now, event).2 = .reuse miner ∧ isReusable s = true) ∨
        (s.miner = some miner ∧ (now, event).2 ≠ .remove miner)) := by
    intro s' hsame hreuse hremove
    simp [hsame, hreuse, hremove]
  cases event with
  | remove left =>
      have hother : some left = some miner ↔ Event.remove left = .remove miner := by simp
      by_cases hleft : s.miner = some left
      · have hgone : (react reports (now, .remove left) s).1.miner = none := by
          simp [react, hleft, remove]
        rw [hgone, hleft, hother]
        simp
      · have hsame : (react reports (now, .remove left) s).1 = s := by simp [react, hleft]
        rw [hsame]
        refine ⟨fun h => Or.inr ⟨h, fun heq => hleft (h.trans (hother.mpr heq).symm)⟩, ?_⟩
        rintro (⟨hreuse, -⟩ | ⟨h, -⟩)
        · cases hreuse
        · exact h
  | reuse next =>
      by_cases hfree : isReusable s = true
      · have hnone : s.miner = none := by
          simp only [isReusable, Bool.and_eq_true, Option.isNone_iff_eq_none] at hfree
          exact hfree.1.1.2
        have hnext : (react reports (now, .reuse next) s).1.miner = some next := by
          simp [react, hfree, reuse]
        rw [hnext, hnone]
        simp [hfree]
      · have hsame : (react reports (now, .reuse next) s).1 = s := by simp [react, hfree]
        rw [hsame]
        simp [hfree]
  | submit sender request client written =>
      refine hkept _ ?_ (by simp) (by simp)
      dsimp only [react]
      split
      · unfold submit
        split <;> rfl
      · rfl
  | pool client event =>
      cases event with
      | result seq pooled ambiguous error =>
          refine hkept _ ?_ (by simp) (by simp)
          dsimp only [react, deliver]
          split <;> rfl
      | active strategy => exact hkept _ (quiet_onActive strategy s).miner (by simp) (by simp)
      | pause strategy => exact hkept _ (quiet_onPause strategy s).miner (by simp) (by simp)
      | job strategy job =>
          exact hkept _ (quiet_setJob now job strategy s).miner (by simp) (by simp)
  | tick => exact hkept _ (quiet_tick s).miner (by simp) (by simp)
  | stop => exact hkept _ (quiet_stop s).miner (by simp) (by simp)
  | login client => exact hkept _ rfl (by simp) (by simp)
  | close client => exact hkept _ rfl (by simp) (by simp)
  | others count => exact hkept _ rfl (by simp) (by simp)
  | reload => exact hkept _ rfl (by simp) (by simp)

/-- The miner that a mapper holds is the one that it serves. -/
theorem miner_iff_serves (es : ℕ → ℕ × Event) (k : ℕ) (miner : MinerId) :
    ((machine id first).state es k).mapper.miner = some miner ↔ Serves id first es k miner := by
  induction k with
  | zero =>
      change some first = some miner ↔ _
      constructor
      · intro h
        exact Or.inl ⟨(Option.some.inj h).symm, fun l hl => absurd hl (Nat.not_lt_zero l)⟩
      · rintro (⟨rfl, -⟩ | ⟨i, hi, -⟩)
        · rfl
        · exact absurd hi (Nat.not_lt_zero i)
  | succ k ih =>
      have hsucc : ((machine id first).state es (k + 1)).mapper.miner =
          (react (reports id first es k) (es k)
            ((machine id first).state es k).mapper).1.miner := by
        change ((Served.machine operation react (add first { id }).1).state es
          (k + 1)).mapper.miner = _
        rw [Served.mapper_succ]
        rfl
      rw [hsucc, miner_react, ih]
      constructor
      · rintro (⟨hreuse, hfree⟩ | ⟨hfirst | ⟨i, hi, hreuse, hfree, hstays⟩, hnot⟩)
        · exact Or.inr ⟨k, Nat.lt_succ_self k, hreuse, hfree, fun l hl hl' => by omega⟩
        · refine Or.inl ⟨hfirst.1, fun l hl => ?_⟩
          rcases Nat.lt_succ_iff_lt_or_eq.mp hl with hl | rfl
          · exact hfirst.2 l hl
          · exact hnot
        · refine Or.inr ⟨i, hi.trans (Nat.lt_succ_self k), hreuse, hfree, fun l hil hl => ?_⟩
          rcases Nat.lt_succ_iff_lt_or_eq.mp hl with hl | rfl
          · exact hstays l hil hl
          · exact hnot
      · rintro (⟨hfirst, hstays⟩ | ⟨i, hi, hreuse, hfree, hstays⟩)
        · exact Or.inr ⟨Or.inl ⟨hfirst, fun l hl => hstays l (hl.trans (Nat.lt_succ_self k))⟩,
            hstays k (Nat.lt_succ_self k)⟩
        · rcases Nat.lt_succ_iff_lt_or_eq.mp hi with hi | rfl
          · exact Or.inr ⟨Or.inr ⟨i, hi, hreuse, hfree, fun l hil hl =>
              hstays l hil (hl.trans (Nat.lt_succ_self k))⟩, hstays k hi (Nat.lt_succ_self k)⟩
          · exact Or.inl ⟨hreuse, hfree⟩

/-- What the miner of a mapper hands in leaves once. -/
theorem finished_of_asked {now : ℕ} {miner : MinerId} {request : JobResult} {client : Option ℕ}
    {written : Bool} (hevent : es j = (now, .submit miner request client written))
    (hheld : ((machine id first).state es j).mapper.miner = some miner) :
    ∃ error, ((machine id first).emitted es j).filterMap view.finished =
      [⟨miner, request, error⟩] := by
  change ∃ error,
    ((Served.machine operation react (add first { id }).1).emitted es j).filterMap _ = _
  rw [Served.emitted_eq, hevent]
  change ∃ error, (if ((machine id first).state es j).mapper.miner = some miner then
    submit now ⟨miner, request, .NoError⟩ _ ((machine id first).state es j).mapper
    else _).2.filterMap view.finished = _
  rw [if_pos hheld]
  cases hchecked : checkSubmit now ⟨miner, request, .NoError⟩
      ((machine id first).state es j).mapper with
  | error error =>
      simp only [submit, hchecked]
      exact ⟨error, rfl⟩
  | ok checked =>
      simp only [submit, hchecked]
      split
      · exact ⟨.BadGateway, rfl⟩
      · exact ⟨.NoError, rfl⟩

theorem of_asks {e : ℕ × Event} {miner : MinerId} {request : JobResult}
    (h : view.asks e = some (miner, request)) :
    ∃ now client written, e = (now, .submit miner request client written) := by
  obtain ⟨now, event⟩ := e
  cases event with
  | submit miner' request' client written =>
      cases h
      exact ⟨now, client, written, rfl⟩
  | _ => cases h

/-- The simple mapper turns a refusal into an error. -/
theorem answersSubmissions (es : ℕ → ℕ × Event) (k : ℕ) :
    view.AnswersSubmissions (machine id first) es (Serves id first es) k := by
  intro j hj miner request hasks hserves
  obtain ⟨now, client, written, hevent⟩ := of_asks hasks
  obtain ⟨error, hfinished⟩ := finished_of_asked hevent ((miner_iff_serves es j miner).mpr hserves)
  refine ⟨error, hfinished, ?_⟩
  obtain ⟨o, ho, hview⟩ := List.mem_filterMap.mp (hfinished ▸ List.mem_singleton_self _)
  rcases finished_cases ho hview with ⟨answer, haccepted, herror⟩ | ⟨-, seq, hseq, hsubmits⟩
  · left
    dsimp only at herror
    rw [← herror]
    cases answer <;> simp [ShareVerification.Answer.error] at haccepted ⊢
  · exact Or.inr ⟨seq, hseq, hsubmits, MapperView.replies_le_one fun i _ => repliesTo_cases seq i⟩

theorem errorsAnswerable (es : ℕ → ℕ × Event) : view.ErrorsAnswerable (machine id first) es := by
  intro j o ho event hview
  rcases finished_cases ho hview with ⟨answer, -, herror⟩ | ⟨herror, -⟩
  · exact ⟨answer, herror⟩
  · exact ⟨.accepted, herror.symm⟩

end SimpleMapper

/-- Submissions are answered or followed: by the shared mappers exactly as long as their clients
refuse nothing that is handed to them, by the simple one always. Whatever error a mapper sets, the
miner is answered with it, and an infrastructure failure forgets the share. -/
theorem submissions_answered (k : ℕ) :
    (∀ config id index target es,
      let mapper := NonceMapper.create config id index target
      let machine := UpstreamMapper.machine UpstreamMapper.nonceKind config mapper
      ((UpstreamMapper.view.AnswersSubmissions machine es (fun _ _ => True) k ∧
          UpstreamMapper.SoundTable UpstreamMapper.nonceKind config mapper es k) ↔
        ∀ j < k, ¬ UpstreamMapper.Refuses UpstreamMapper.nonceKind (machine.state es j) (es j)) ∧
      UpstreamMapper.view.ErrorsAnswerable machine es) ∧
    (∀ config target es,
      let mapper := ExtraNonceMapper.create config target
      let machine := UpstreamMapper.machine UpstreamMapper.extraNonceKind config mapper
      ((UpstreamMapper.view.AnswersSubmissions machine es (fun _ _ => True) k ∧
          UpstreamMapper.SoundTable UpstreamMapper.extraNonceKind config mapper es k) ↔
        ∀ j < k, ¬ UpstreamMapper.Refuses UpstreamMapper.extraNonceKind
          (machine.state es j) (es j)) ∧
      UpstreamMapper.view.ErrorsAnswerable machine es) ∧
    (∀ id first es, SimpleMapper.view.AnswersSubmissions (SimpleMapper.machine id first) es
        (SimpleMapper.Serves id first es) k ∧
      SimpleMapper.view.ErrorsAnswerable (SimpleMapper.machine id first) es) ∧
    ∀ (env : ShareVerification.Env) key request submission s,
      let error := (env.dispatch request).error
      let forgotten := if ShareVerification.isInfrastructureFailure error then
        ShareVerification.forgetSubmission key submission s else s
      error ≠ .NoError →
        ShareVerification.finishSubmission env key request submission .NoError s =
          ShareVerification.report key request submission (.refused error) forgotten
            (ShareVerification.reply env key request.shareId forgotten) := by
  refine ⟨fun config id index target es => ⟨?_, ?_⟩, fun config target es => ⟨?_, ?_⟩,
    fun id first es => ⟨?_, ?_⟩, fun env key request submission s => ?_⟩
  · exact UpstreamMapper.fulfilled_iff UpstreamMapper.lawful_nonceKind rfl es k
  · exact UpstreamMapper.errorsAnswerable UpstreamMapper.lawful_nonceKind es
  · exact UpstreamMapper.fulfilled_iff UpstreamMapper.lawful_extraNonceKind rfl es k
  · exact UpstreamMapper.errorsAnswerable UpstreamMapper.lawful_extraNonceKind es
  · exact SimpleMapper.answersSubmissions es k
  · exact SimpleMapper.errorsAnswerable es
  · intro error forgotten herror
    cases hanswer : env.dispatch request with
    | accepted => exact absurd (by simp [error, hanswer, ShareVerification.Answer.error]) herror
    | badGateway | invalidJobId | incorrectAlgorithm =>
        simp [ShareVerification.finishSubmission, error, forgotten, hanswer,
          ShareVerification.Answer.error]

/-- The share that a miner of the process has just reserved, locally and in the cache. -/
def reservedShare : Miner.SubmissionReservation where
  globalShare := ⟨List.replicate 48 7, 1, 3000000, 1⟩
  localKey := "a:01000000"
  localToken := 1

def reservedSystem : ShareVerification.System where
  now := 500
  miners := (∅ : Table ℕ Miner.State).insert 4
    { key := 4, rpcId := "r", stage := .ready,
      seenSubmissionTimes := (∅ : Table String _).insert "a:01000000" ⟨500, 1⟩ }
  cache := (GlobalShareCache.reserve 1 3000000 (List.replicate 48 7)
    (GlobalShareCache.observeHeight 1 3000000 {})).2.2

/-- A share that no mapper takes is forgotten, and its miner told so. -/
theorem submissions_answered_refused :
    GlobalShareCache.held reservedSystem.cache reservedShare.globalShare = true ∧
      GlobalShareCache.held (ShareVerification.forgetSubmission 4 reservedShare
        reservedSystem).cache reservedShare.globalShare = false ∧
      ShareVerification.finishSubmission { dispatch := fun _ => .badGateway } 4
          { id := 7, shareId := 9, jobId := some "a" } reservedShare .NoError reservedSystem =
        ShareVerification.report 4 { id := 7, shareId := 9, jobId := some "a" } reservedShare
          (.refused .BadGateway)
          (ShareVerification.forgetSubmission 4 reservedShare reservedSystem)
          (ShareVerification.reply { dispatch := fun _ => .badGateway } 4 9
            (ShareVerification.forgetSubmission 4 reservedShare reservedSystem)) :=
  ⟨by decide +kernel, by decide +kernel, (submissions_answered 0).2.2.2
    { dispatch := fun _ => .badGateway } 4 { id := 7, shareId := 9, jobId := some "a" }
    reservedShare reservedSystem (by decide)⟩

namespace UpstreamMapper

/-- One miner on a pool that refuses its share: the connection is closed. -/
def refusedRun : ℕ → Event :=
  follow [.start, .add SimpleMapper.firstMiner, .pool 0 .active,
    .pool 0 (.job { Job.initial with id := "a" }),
    .submit SimpleMapper.firstMiner { id := 7, jobId := some "a" } (some 0) true] .tick

theorem refused_share_lost :
    ¬ ∀ config id index target es k,
      view.AnswersSubmissions (machine nonceKind config (NonceMapper.create config id index target))
          es (fun _ _ => True) k ∧
        SoundTable nonceKind config (NonceMapper.create config id index target) es k := by
  intro h
  have hnever := (fulfilled_iff lawful_nonceKind rfl refusedRun 5).mp
    (h ⟨0, fun _ => 0⟩ 0 0 0 refusedRun 5)
  refine hnever 4 (by decide) ⟨⟨{ id := 7, jobId := some "a" }, rfl⟩, fun c hc => ?_⟩
  cases hc
  rintro ⟨hconnected, -⟩
  cases hconnected

end UpstreamMapper

end XmrigProxy
