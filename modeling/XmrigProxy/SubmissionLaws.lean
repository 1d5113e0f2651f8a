import XmrigProxy.DaemonSubmission

/-! The laws of block submission. The history of one submission is everything observed
under the id its `submit` returned; it is open while the submission is pending and closed
by exactly one report. The step lemmas say how one observation extends an open history
or closes it, and the invariant ties the table of pending submissions to the histories. -/
namespace XmrigProxy.SubmissionLaws

open DaemonSubmission Handler

structure Attempt where
  id : ℕ
  blob : String
  start : ℕ
  deriving DecidableEq, Repr

def seqOf : Output → ℕ
  | .attempt seq .. => seq
  | .returned seq .. => seq
  | .reported result _ => result.seq

def history (seq : ℕ) (tr : List Output) : List Output := tr.filter fun o => seqOf o = seq

def attempts (h : List Output) : List Attempt := h.filterMap fun
  | .attempt _ id blob start => some ⟨id, blob, start⟩
  | _ => none

def answers (h : List Output) : List Answer := h.filterMap fun
  | .returned _ _ answer => some answer
  | _ => none

def reports (h : List Output) : List SubmitResult := h.filterMap fun
  | .reported result _ => some result
  | _ => none

theorem attempts_append (xs ys : List Output) :
    attempts (xs ++ ys) = attempts xs ++ attempts ys := List.filterMap_append ..

/-- No attempt starts after one returned OK or after the report. -/
def NoLateStart (before : List Output) : Output → Prop
  | .attempt .. => .ok ∉ answers before ∧ reports before = []
  | _ => True

def Spaced (a b : Attempt) : Prop := a.start + retryDelayMs ≤ b.start

def ReturnedTo (a : Attempt) (h : List Output) : Prop := ∃ seq answer, .returned seq a.id answer ∈ h

/-- What the reported outcome says about the answers to the attempts. -/
structure Verdict (outcome : SubmitOutcome) (h : List Output) : Prop where
  accepted_iff : outcome = .accepted ↔ .ok ∈ answers h
  rejected_only : outcome = .rejected →
    (∀ a ∈ attempts h, ReturnedTo a h) ∧ ∀ answer ∈ answers h, answer = .rejected
  specified : outcome ≠ .unspecified

/-- The history of a pending submission. -/
structure Open (h : List Output) (p : PendingSubmission) : Prop where
  count : (attempts h).length = p.attempts
  bounds : 1 ≤ p.attempts ∧ p.attempts ≤ maxSubmitAttempts
  blob : ∀ a ∈ attempts h, a.blob = p.blockBlob
  started : ∀ a ∈ attempts h, a.start ≤ p.attemptStartedMs
  spaced : (attempts h).Pairwise Spaced
  unreported : reports h = []
  noOk : .ok ∉ answers h
  due : p.retryDueMs ≠ 0 →
    p.attemptStartedMs + retryDelayMs ≤ p.retryDueMs ∧ p.attempts < maxSubmitAttempts
  indeterminate : p.hadIndeterminateOutcome = true ↔ .indeterminate ∈ answers h
  noLateStart : Along NoLateStart h

/-- The history of a finished submission. -/
structure Closed (h : List Output) : Prop where
  bounds : (attempts h).length ≤ maxSubmitAttempts
  blob : ∀ a ∈ attempts h, ∀ b ∈ attempts h, a.blob = b.blob
  spaced : (attempts h).Pairwise Spaced
  reported : ∃ result, reports h = [result] ∧ Verdict result.outcome h
  noLateStart : Along NoLateStart h

section Histories

variable {h : List Output} {p : PendingSubmission}

theorem Open.first (seq id now : ℕ) (blob : String) (result : SubmitResult) :
    Open [.attempt seq id blob now]
      { result := result, blockBlob := blob, attemptStartedMs := now } := by
  refine ⟨rfl, by simp [maxSubmitAttempts], by simp [attempts], by simp [attempts],
    by simp [attempts], rfl, by simp [answers], by simp, by simp [answers], ?_⟩
  exact (along_nil NoLateStart).snoc (by simp [NoLateStart, answers, reports])

theorem Open.retry (ho : Open h p) (seq id now : ℕ) (hdue : p.retryDueMs ≠ 0)
    (hnow : p.retryDueMs ≤ now) :
    Open (h ++ [.attempt seq id p.blockBlob now])
      { p with attempts := p.attempts + 1, retryDueMs := 0, attemptStartedMs := now } := by
  have hatt : attempts (h ++ [.attempt seq id p.blockBlob now]) =
      attempts h ++ [⟨id, p.blockBlob, now⟩] := by simp [attempts]
  have hans : answers (h ++ [.attempt seq id p.blockBlob now]) = answers h := by simp [answers]
  have hrep : reports (h ++ [.attempt seq id p.blockBlob now]) = reports h := by simp [reports]
  obtain ⟨hlate, hroom⟩ := ho.due hdue
  have hbefore : ∀ a ∈ attempts h, a.start + retryDelayMs ≤ now := fun a ha => by
    have := ho.started a ha
    omega
  refine ⟨?_, ⟨by simp, hroom⟩, ?_, ?_, ?_, by rw [hrep]; exact ho.unreported,
    by rw [hans]; exact ho.noOk, by simp, by rw [hans]; exact ho.indeterminate, ?_⟩
  · simp [hatt, ho.count]
  · rw [hatt]
    simpa [or_imp, forall_and] using ho.blob
  · rw [hatt]
    intro a ha
    rcases List.mem_append.mp ha with ha | ha
    · exact (Nat.le_add_right _ _).trans (hbefore a ha)
    · obtain rfl := List.mem_singleton.mp ha
      exact le_rfl
  · rw [hatt, List.pairwise_append]
    refine ⟨ho.spaced, List.pairwise_singleton _ _, fun a ha b hb => ?_⟩
    obtain rfl := List.mem_singleton.mp hb
    exact hbefore a ha
  · exact ho.noLateStart.snoc ⟨ho.noOk, ho.unreported⟩

theorem Open.saw_indeterminate (ho : Open h p) (answer : Answer) :
    (p.hadIndeterminateOutcome || answer = .indeterminate) = true ↔
      .indeterminate ∈ answers h ++ [answer] := by
  rw [Bool.or_eq_true, ho.indeterminate, decide_eq_true_eq, List.mem_append, List.mem_singleton]
  exact or_congr_right eq_comm

/-- An answer other than OK, with attempts left: the next one is scheduled. -/
theorem Open.postpone (ho : Open h p) (seq id now : ℕ) (answer : Answer) (reason : String)
    (hok : answer ≠ .ok) (hroom : p.attempts < maxSubmitAttempts)
    (hnow : p.attemptStartedMs ≤ now) :
    Open (h ++ [.returned seq id answer])
      { p with
        lastSubmitError := reason
        hadIndeterminateOutcome := p.hadIndeterminateOutcome || answer = .indeterminate
        retryDueMs := nextSubmitAttemptAt now } := by
  have hatt : attempts (h ++ [.returned seq id answer]) = attempts h := by simp [attempts]
  have hans : answers (h ++ [.returned seq id answer]) = answers h ++ [answer] := by
    simp [answers]
  have hrep : reports (h ++ [.returned seq id answer]) = reports h := by simp [reports]
  refine ⟨by rw [hatt]; exact ho.count, ho.bounds, by rw [hatt]; exact ho.blob,
    by rw [hatt]; exact ho.started, by rw [hatt]; exact ho.spaced,
    by rw [hrep]; exact ho.unreported, ?_, fun _ => ⟨?_, hroom⟩, ?_,
    ho.noLateStart.snoc trivial⟩
  · rw [hans]
    simpa [hok.symm] using ho.noOk
  · exact Nat.add_le_add_right hnow _
  · rw [hans]
    exact ho.saw_indeterminate answer

theorem Open.toClosed (ho : Open h p) {out : List Output} (hatt : attempts out = [])
    (result : SubmitResult) (hrep : reports out = [result])
    (hverdict : Verdict result.outcome (h ++ out))
    (hlate : ∀ o ∈ out, ∀ before, NoLateStart before o) :
    Closed (h ++ out) := by
  have hatt' : attempts (h ++ out) = attempts h := by
    simpa [attempts, List.filterMap_append] using hatt
  have hrep' : reports (h ++ out) = [result] := by
    have := ho.unreported
    simp only [reports, List.filterMap_append] at this hrep ⊢
    rw [this, hrep, List.nil_append]
  refine ⟨?_, ?_, by rw [hatt']; exact ho.spaced, ⟨result, hrep', hverdict⟩,
    ho.noLateStart.append hlate⟩
  · rw [hatt', ho.count]
    exact ho.bounds.2
  · rw [hatt']
    intro a ha b hb
    rw [ho.blob a ha, ho.blob b hb]

theorem Open.accept (ho : Open h p) (seq id : ℕ) (error : Option String) :
    Closed (h ++ [.returned seq id .ok,
      .reported { p.result with outcome := .accepted } error]) := by
  refine ho.toClosed (by simp [attempts]) _ rfl ?_ (by simp [NoLateStart])
  exact ⟨by simp [answers], by simp, by simp⟩

/-- The last attempt was answered without an OK. -/
theorem Open.exhaust (ho : Open h p) (seq id : ℕ) (answer : Answer) (error : Option String)
    (hok : answer ≠ .ok) (hspent : ∀ a ∈ attempts h, a.id = id ∨ ReturnedTo a h) :
    Closed (h ++ [.returned seq id answer, .reported { p.result with
      outcome := if p.hadIndeterminateOutcome || answer = .indeterminate then .ambiguous
        else .rejected } error]) := by
  have hans : answers (h ++ [.returned seq id answer, .reported { p.result with
      outcome := if p.hadIndeterminateOutcome || answer = .indeterminate then .ambiguous
        else .rejected } error]) = answers h ++ [answer] := by simp [answers]
  have hatt : attempts (h ++ [.returned seq id answer, .reported { p.result with
      outcome := if p.hadIndeterminateOutcome || answer = .indeterminate then .ambiguous
        else .rejected } error]) = attempts h := by simp [attempts]
  have hsome := ho.saw_indeterminate answer
  have hnoOk : .ok ∉ answers h ++ [answer] := by simpa [hok.symm] using ho.noOk
  refine ho.toClosed (by simp [attempts]) _ rfl ⟨?_, ?_, ?_⟩
    (by simp [NoLateStart])
  · rw [hans]
    simp only [hnoOk, iff_false]
    split <;> simp
  · rw [hans, hatt]
    intro hrej
    have hall : .indeterminate ∉ answers h ++ [answer] := by
      rw [← hsome]
      intro hi
      dsimp only at hrej
      rw [if_pos hi] at hrej
      cases hrej
    refine ⟨fun a ha => ?_, fun given hgiven => ?_⟩
    · rcases hspent a ha with rfl | ⟨q, given, hgiven⟩
      · exact ⟨seq, answer, by simp⟩
      · exact ⟨q, given, List.mem_append_left _ hgiven⟩
    · cases given with
      | ok => exact absurd hgiven hnoOk
      | rejected => rfl
      | indeterminate => exact absurd hgiven hall
  · split <;> simp

theorem Open.abandon (ho : Open h p) (error : Option String) :
    Closed (h ++ [.reported { p.result with outcome := .ambiguous } error]) := by
  have hans : answers (h ++ [.reported { p.result with outcome := .ambiguous } error]) =
      answers h := by simp [answers]
  refine ho.toClosed (by simp [attempts]) _ rfl ⟨?_, by simp, by simp⟩
    (by simp [NoLateStart])
  rw [hans]
  simpa using ho.noOk

end Histories

theorem history_append (seq : ℕ) (xs ys : List Output) :
    history seq (xs ++ ys) = history seq xs ++ history seq ys := List.filter_append ..

theorem history_of_seq {out : List Output} {seq : ℕ} (h : ∀ o ∈ out, seqOf o = seq) (q : ℕ) :
    history q out = if q = seq then out else [] := by
  by_cases hq : q = seq
  · subst hq
    rw [if_pos rfl]
    exact List.filter_eq_self.mpr fun o ho => by simpa using h o ho
  · rw [if_neg hq]
    exact List.filter_eq_nil_iff.mpr fun o ho => by simpa [h o ho] using Ne.symm hq

theorem ReturnedTo.append {a : Attempt} {h : List Output} (ha : ReturnedTo a h)
    (out : List Output) : ReturnedTo a (h ++ out) := by
  obtain ⟨seq, answer, hmem⟩ := ha
  exact ⟨seq, answer, List.mem_append_left _ hmem⟩

theorem returnedTo_of_mem {a : Attempt} {seq : ℕ} {answer : Answer} {tr : List Output}
    (h : .returned seq a.id answer ∈ tr) : ReturnedTo a (history seq tr) :=
  ⟨seq, answer, List.mem_filter.mpr ⟨h, by simp [seqOf]⟩⟩

/-- Every pending submission has an open history, and every other history is closed. A submission is
pending under the id of its last attempt, and the attempts before it were answered. -/
structure Consistent (now : ℕ) (answered : List ℕ) (s : State) (tr : List Output) : Prop where
  fresh : ∀ q, s.sequence ≤ q → history q tr = []
  ids : ∀ id p, s.pendingSubmissions.find id = some p → id < s.sequence ∧ p.result.seq < s.sequence
  opened : ∀ id p, s.pendingSubmissions.find id = some p →
    Open (history p.result.seq tr) p ∧ p.attemptStartedMs ≤ now
  known : ∀ q id answer, .returned q id answer ∈ tr → id ∈ answered
  waiting : ∀ id p, s.pendingSubmissions.find id = some p → p.retryDueMs ≠ 0 →
    ∃ answer, .returned p.result.seq id answer ∈ tr
  current : ∀ id p, s.pendingSubmissions.find id = some p →
    ∃ a ∈ attempts (history p.result.seq tr), a.id = id
  spent : ∀ id p, s.pendingSubmissions.find id = some p →
    ∀ a ∈ attempts (history p.result.seq tr), a.id = id ∨
      ReturnedTo a (history p.result.seq tr)
  unique : ∀ id p id' p', s.pendingSubmissions.find id = some p →
    s.pendingSubmissions.find id' = some p' → p.result.seq = p'.result.seq → id = id'
  closed : ∀ q, history q tr ≠ [] →
    (∃ id p, s.pendingSubmissions.find id = some p ∧ p.result.seq = q) ∨ Closed (history q tr)

section Table

variable {now : ℕ} {answered : List ℕ} {s : State} {tr : List Output}

theorem Consistent.later (h : Consistent now answered s tr) (elapsed : ℕ) (more : List ℕ) :
    Consistent (now + elapsed) (more ++ answered) s tr :=
  ⟨h.fresh, h.ids, fun id p hp => ⟨(h.opened id p hp).1, (h.opened id p hp).2.trans
      (Nat.le_add_right _ _)⟩, fun q id answer ho =>
        List.mem_append_right _ (h.known q id answer ho),
    h.waiting, h.current, h.spent, h.unique, h.closed⟩

/-- A new submission enters the table under the next request id. -/
theorem Consistent.start (h : Consistent now answered s tr) {p : PendingSubmission}
    {out : List Output} {s' : State} (hseq : p.result.seq = s.sequence)
    (hout : ∀ o ∈ out, seqOf o = s.sequence)
    (hknown : ∀ q i given, .returned q i given ∈ out → i ∈ answered) (hopen : Open out p)
    (hstart : p.attemptStartedMs ≤ now)
    (hwait : p.retryDueMs = 0) (hid : (attempts out).map Attempt.id = [s.sequence])
    (hsequence : s'.sequence = s.sequence + 1)
    (hnew : ∀ i, s'.pendingSubmissions.find i =
      if i = s.sequence then some p else s.pendingSubmissions.find i) :
    Consistent now answered s' (tr ++ out) := by
  have hhist : ∀ q, history q (tr ++ out) =
      history q tr ++ if q = s.sequence then out else [] := fun q => by
    rw [history_append, history_of_seq hout]
  have hself : s'.pendingSubmissions.find s.sequence = some p := by rw [hnew, if_pos rfl]
  have hother : ∀ i r, i ≠ s.sequence → s'.pendingSubmissions.find i = some r →
      s.pendingSubmissions.find i = some r ∧ r.result.seq ≠ s.sequence := by
    intro i r hi hr
    rw [hnew, if_neg hi] at hr
    exact ⟨hr, (h.ids i r hr).2.ne⟩
  have hfirst : history s.sequence (tr ++ out) = out := by
    rw [hhist, if_pos rfl, h.fresh _ le_rfl, List.nil_append]
  refine ⟨fun q hq => ?_, fun i r hr => ?_, fun i r hr => ?_, fun q i given hmem => ?_,
    fun i r hr hd => ?_, fun i r hr => ?_, fun i r hr a ha => ?_,
    fun i r i' r' hr hr' heq => ?_, fun q hq => ?_⟩
  · rw [hhist, h.fresh q (by omega), if_neg (by omega), List.append_nil]
  · by_cases hi : i = s.sequence
    · subst hi
      obtain rfl : p = r := Option.some.inj (hself.symm.trans hr)
      omega
    · have := h.ids i r (hother i r hi hr).1
      omega
  · by_cases hi : i = s.sequence
    · subst hi
      obtain rfl : p = r := Option.some.inj (hself.symm.trans hr)
      rw [hseq, hfirst]
      exact ⟨hopen, hstart⟩
    · obtain ⟨hold, hne⟩ := hother i r hi hr
      rw [hhist, if_neg hne, List.append_nil]
      exact h.opened i r hold
  · rcases List.mem_append.mp hmem with hmem | hmem
    · exact h.known q i given hmem
    · exact hknown q i given hmem
  · by_cases hi : i = s.sequence
    · subst hi
      obtain rfl : p = r := Option.some.inj (hself.symm.trans hr)
      exact absurd hwait hd
    · obtain ⟨given, hgiven⟩ := h.waiting i r (hother i r hi hr).1 hd
      exact ⟨given, List.mem_append_left _ hgiven⟩
  · by_cases hi : i = s.sequence
    · subst hi
      obtain rfl : p = r := Option.some.inj (hself.symm.trans hr)
      rw [hseq, hfirst]
      exact List.mem_map.mp (hid ▸ List.mem_singleton_self _)
    · obtain ⟨hold, hne⟩ := hother i r hi hr
      rw [hhist, if_neg hne, List.append_nil]
      exact h.current i r hold
  · by_cases hi : i = s.sequence
    · subst hi
      obtain rfl : p = r := Option.some.inj (hself.symm.trans hr)
      rw [hseq, hfirst] at ha
      have hmem := List.mem_map_of_mem (f := Attempt.id) ha
      rw [hid, List.mem_singleton] at hmem
      exact Or.inl hmem
    · obtain ⟨hold, hne⟩ := hother i r hi hr
      rw [hhist, if_neg hne, List.append_nil] at ha ⊢
      exact h.spent i r hold a ha
  · by_cases hi : i = s.sequence <;> by_cases hi' : i' = s.sequence
    · rw [hi, hi']
    · subst hi
      obtain rfl : p = r := Option.some.inj (hself.symm.trans hr)
      exact absurd (heq.symm.trans hseq) (hother i' r' hi' hr').2
    · subst hi'
      obtain rfl : p = r' := Option.some.inj (hself.symm.trans hr')
      exact absurd (heq.trans hseq) (hother i r hi hr).2
    · exact h.unique i r i' r' (hother i r hi hr).1 (hother i' r' hi' hr').1 heq
  · by_cases hp : q = s.sequence
    · exact Or.inl ⟨s.sequence, p, hself, hseq.trans hp.symm⟩
    · rw [hhist, if_neg hp, List.append_nil] at hq ⊢
      rcases h.closed q hq with ⟨i, r, hr, hrq⟩ | hc
      · exact Or.inl ⟨i, r, by rw [hnew, if_neg (h.ids i r hr).1.ne, hr], hrq⟩
      · exact Or.inr hc

/-- One submission moves on, under its old id or a fresh one. -/
structure Moves (now : ℕ) (answered : List ℕ) (id newId : ℕ) (p p' : PendingSubmission)
    (out : List Output) (s s' : State) (tr : List Output) : Prop where
  find : s.pendingSubmissions.find id = some p
  opened : Open (history p.result.seq tr ++ out) p'
  seq_eq : p'.result.seq = p.result.seq
  seqOf_out : ∀ o ∈ out, seqOf o = p.result.seq
  known : ∀ q i given, .returned q i given ∈ out → i ∈ answered
  start : p'.attemptStartedMs ≤ now
  named : newId = id ∧ attempts out = [] ∨ newId = s.sequence ∧
    (attempts out).map Attempt.id = [newId] ∧ ∃ given, .returned p.result.seq id given ∈ tr
  lt : newId < s'.sequence
  le : s.sequence ≤ s'.sequence
  waits : p'.retryDueMs ≠ 0 → ∃ given, .returned p.result.seq newId given ∈ out
  table : ∀ i, s'.pendingSubmissions.find i = if i = newId then some p'
    else if i = id then none else s.pendingSubmissions.find i

namespace Moves

variable {id newId : ℕ} {p p' : PendingSubmission} {out : List Output} {s' : State}
  (m : Moves now answered id newId p p' out s s' tr) (h : Consistent now answered s tr)

include m

theorem history_eq (q : ℕ) :
    history q (tr ++ out) = history q tr ++ if q = p.result.seq then out else [] := by
  rw [history_append, history_of_seq m.seqOf_out]

theorem attempts_eq : attempts (history p.result.seq (tr ++ out)) =
    attempts (history p.result.seq tr) ++ attempts out := by
  rw [m.history_eq, if_pos rfl, attempts_append]

theorem self : s'.pendingSubmissions.find newId = some p' := by rw [m.table, if_pos rfl]

include h

/-- The submission under the new id is the one that moved, and every other one is as before. -/
theorem cases {i : ℕ} {r : PendingSubmission} (hr : s'.pendingSubmissions.find i = some r) :
    i = newId ∧ r = p' ∨
      i ≠ newId ∧ i ≠ id ∧ s.pendingSubmissions.find i = some r ∧ r.result.seq ≠ p.result.seq := by
  by_cases hi : i = newId
  · subst hi
    exact Or.inl ⟨rfl, Option.some.inj (hr.symm.trans m.self)⟩
  · rw [m.table, if_neg hi] at hr
    split at hr
    · cases hr
    · next hne =>
      exact Or.inr ⟨hi, hne, hr, fun heq => hne (h.unique i r id p hr m.find heq)⟩

theorem waiting {i : ℕ} {r : PendingSubmission} (hr : s'.pendingSubmissions.find i = some r)
    (hdue : r.retryDueMs ≠ 0) : ∃ given, .returned r.result.seq i given ∈ tr ++ out := by
  rcases m.cases h hr with ⟨rfl, rfl⟩ | ⟨-, -, hold, -⟩
  · obtain ⟨given, hgiven⟩ := m.waits hdue
    exact ⟨given, List.mem_append_right _ (m.seq_eq ▸ hgiven)⟩
  · obtain ⟨given, hgiven⟩ := h.waiting i r hold hdue
    exact ⟨given, List.mem_append_left _ hgiven⟩

theorem current {i : ℕ} {r : PendingSubmission} (hr : s'.pendingSubmissions.find i = some r) :
    ∃ a ∈ attempts (history r.result.seq (tr ++ out)), a.id = i := by
  rcases m.cases h hr with ⟨rfl, rfl⟩ | ⟨-, -, hold, hne⟩
  · rw [m.seq_eq, m.attempts_eq]
    rcases m.named with ⟨rfl, -⟩ | ⟨-, hone, -⟩
    · obtain ⟨a, ha, hlast⟩ := h.current i p m.find
      exact ⟨a, List.mem_append_left _ ha, hlast⟩
    · obtain ⟨a, ha, hlast⟩ := List.mem_map.mp (hone ▸ List.mem_singleton_self i)
      exact ⟨a, List.mem_append_right _ ha, hlast⟩
  · rw [m.history_eq, if_neg hne, List.append_nil]
    exact h.current i r hold

theorem spent {i : ℕ} {r : PendingSubmission} (hr : s'.pendingSubmissions.find i = some r)
    {a : Attempt} (ha : a ∈ attempts (history r.result.seq (tr ++ out))) :
    a.id = i ∨ ReturnedTo a (history r.result.seq (tr ++ out)) := by
  rcases m.cases h hr with ⟨rfl, rfl⟩ | ⟨-, -, hold, hne⟩
  · rw [m.seq_eq, m.attempts_eq, List.mem_append] at ha
    rw [m.seq_eq, history_append]
    rcases m.named with ⟨rfl, hnone⟩ | ⟨-, hone, given, hgiven⟩
    · rw [hnone] at ha
      exact (h.spent i p m.find a (ha.resolve_right List.not_mem_nil)).imp_right
        fun hdone => hdone.append _
    · rcases ha with ha | ha
      · rcases h.spent id p m.find a ha with rfl | hdone
        · exact Or.inr ((returnedTo_of_mem hgiven).append _)
        · exact Or.inr (hdone.append _)
      · have hmem := List.mem_map_of_mem (f := Attempt.id) ha
        rw [hone, List.mem_singleton] at hmem
        exact Or.inl hmem
  · rw [m.history_eq, if_neg hne, List.append_nil] at ha ⊢
    exact h.spent i r hold a ha

theorem unique {i i' : ℕ} {r r' : PendingSubmission}
    (hr : s'.pendingSubmissions.find i = some r) (hr' : s'.pendingSubmissions.find i' = some r')
    (heq : r.result.seq = r'.result.seq) : i = i' := by
  rcases m.cases h hr with ⟨rfl, rfl⟩ | ⟨-, -, hold, hne⟩ <;>
    rcases m.cases h hr' with ⟨rfl, rfl⟩ | ⟨-, -, hold', hne'⟩
  · rfl
  · exact absurd (heq.symm.trans m.seq_eq) hne'
  · exact absurd (heq.trans m.seq_eq) hne
  · exact h.unique i r i' r' hold hold' heq

theorem closed {q : ℕ} (hq : history q (tr ++ out) ≠ []) :
    (∃ i r, s'.pendingSubmissions.find i = some r ∧ r.result.seq = q) ∨
      Closed (history q (tr ++ out)) := by
  by_cases hp : q = p.result.seq
  · exact Or.inl ⟨newId, p', m.self, m.seq_eq.trans hp.symm⟩
  · rw [m.history_eq, if_neg hp, List.append_nil] at hq ⊢
    rcases h.closed q hq with ⟨i, r, hr, hrq⟩ | hclosed
    · have hi : i ≠ id := by
        rintro rfl
        obtain rfl : p = r := Option.some.inj (m.find.symm.trans hr)
        exact hp hrq.symm
      have hfresh : i ≠ newId := by
        rcases m.named with ⟨rfl, -⟩ | ⟨rfl, -⟩
        · exact hi
        · exact (h.ids i r hr).1.ne
      exact Or.inl ⟨i, r, by rw [m.table, if_neg hfresh, if_neg hi, hr], hrq⟩
    · exact Or.inr hclosed

theorem consistent : Consistent now answered s' (tr ++ out) where
  fresh := by
    intro q hq
    have hids := h.ids id p m.find
    have hle := m.le
    rw [m.history_eq, h.fresh q (hle.trans hq), if_neg (by omega), List.append_nil]
  ids := by
    intro i r hr
    have hle := m.le
    rcases m.cases h hr with ⟨rfl, rfl⟩ | ⟨-, -, hold, -⟩
    · have hids := h.ids id p m.find
      exact ⟨m.lt, by rw [m.seq_eq]; omega⟩
    · have hids := h.ids i r hold
      omega
  opened := by
    intro i r hr
    rcases m.cases h hr with ⟨rfl, rfl⟩ | ⟨-, -, hold, hne⟩
    · rw [m.seq_eq, m.history_eq, if_pos rfl]
      exact ⟨m.opened, m.start⟩
    · rw [m.history_eq, if_neg hne, List.append_nil]
      exact h.opened i r hold
  known := by
    intro q i given hmem
    rcases List.mem_append.mp hmem with hmem | hmem
    · exact h.known q i given hmem
    · exact m.known q i given hmem
  waiting := fun _ _ hr hdue => m.waiting h hr hdue
  current := fun _ _ hr => m.current h hr
  spent := fun _ _ hr _ ha => m.spent h hr ha
  unique := fun _ _ _ _ hr hr' heq => m.unique h hr hr' heq
  closed := fun _ hq => m.closed h hq

end Moves

/-- One submission is finished. -/
theorem Consistent.finish (h : Consistent now answered s tr) {id : ℕ} {p : PendingSubmission}
    {out : List Output} {s' : State} (hfind : s.pendingSubmissions.find id = some p)
    (hout : ∀ o ∈ out, seqOf o = p.result.seq)
    (hknown : ∀ q i given, .returned q i given ∈ out → i ∈ answered)
    (hclosed : Closed (history p.result.seq tr ++ out))
    (hsequence : s'.sequence = s.sequence)
    (hnew : ∀ i, s'.pendingSubmissions.find i =
      if i = id then none else s.pendingSubmissions.find i) :
    Consistent now answered s' (tr ++ out) := by
  have hids := h.ids id p hfind
  have hhist : ∀ q, history q (tr ++ out) =
      history q tr ++ if q = p.result.seq then out else [] := fun q => by
    rw [history_append, history_of_seq hout]
  have hother : ∀ i r, s'.pendingSubmissions.find i = some r →
      s.pendingSubmissions.find i = some r ∧ r.result.seq ≠ p.result.seq := by
    intro i r hr
    rw [hnew] at hr
    split at hr
    · cases hr
    · next hne => exact ⟨hr, fun heq => hne (h.unique i r id p hr hfind heq)⟩
  have hkept : ∀ i r, s'.pendingSubmissions.find i = some r →
      history r.result.seq (tr ++ out) = history r.result.seq tr := by
    intro i r hr
    rw [hhist, if_neg (hother i r hr).2, List.append_nil]
  refine ⟨fun q hq => ?_, fun i r hr => ?_, fun i r hr => ?_, fun q i given hmem => ?_,
    fun i r hr hd => ?_, fun i r hr => ?_, fun i r hr a ha => ?_, fun i r i' r' hr hr' =>
    h.unique i r i' r' (hother i r hr).1 (hother i' r' hr').1, fun q hq => ?_⟩
  · rw [hhist, h.fresh q (hsequence ▸ hq), if_neg (by omega), List.append_nil]
  · rw [hsequence]
    exact h.ids i r (hother i r hr).1
  · rw [hkept i r hr]
    exact h.opened i r (hother i r hr).1
  · rcases List.mem_append.mp hmem with hmem | hmem
    · exact h.known q i given hmem
    · exact hknown q i given hmem
  · obtain ⟨given, hgiven⟩ := h.waiting i r (hother i r hr).1 hd
    exact ⟨given, List.mem_append_left _ hgiven⟩
  · rw [hkept i r hr]
    exact h.current i r (hother i r hr).1
  · rw [hkept i r hr] at ha ⊢
    exact h.spent i r (hother i r hr).1 a ha
  · by_cases hp : q = p.result.seq
    · subst hp
      rw [hhist, if_pos rfl]
      exact Or.inr hclosed
    · rw [hhist, if_neg hp, List.append_nil] at hq ⊢
      rcases h.closed q hq with ⟨i, r, hr, hrq⟩ | hc
      · have hi : i ≠ id := by
          rintro rfl
          obtain rfl : p = r := Option.some.inj (hfind.symm.trans hr)
          exact hp hrq.symm
        exact Or.inl ⟨i, r, by rw [hnew, if_neg hi, hr], hrq⟩
      · exact Or.inr hc

end Table

section Handlers

variable {now : ℕ} {answered : List ℕ} {s : State} {tr : List Output}

theorem consistent_submit (h : Consistent now answered s tr) (block : Option Block) :
    Consistent now answered (submit now block s).2.1 (tr ++ (submit now block s).2.2) := by
  cases block with
  | none => simpa [submit] using h
  | some block =>
      exact h.start rfl (by simp [submit, seqOf]) (by simp [submit]) (Open.first _ _ _ _ _)
        le_rfl rfl rfl rfl
        fun i => Table.find_insert _ _ i _

theorem consistent_abandon (id : ℕ) (message : Option String) :
    Preserves (Consistent now answered) (finalizeSubmission id .ambiguous message) := by
  intro s tr h
  unfold finalizeSubmission
  cases hfind : s.pendingSubmissions.find id with
  | none => simpa using h
  | some p =>
      exact h.finish hfind (by simp [seqOf]) (by simp) ((h.opened id p hfind).1.abandon _) rfl
        fun i => s.pendingSubmissions.find_erase id i

theorem consistent_disconnect : Preserves (Consistent now answered) disconnect := fun s tr h =>
  Preserves.forEach (fun id => consistent_abandon id _) s.pendingSubmissions.keys s tr h

/-- A response that is not an OK: the next attempt is scheduled or the last one exhausted. -/
theorem consistent_retryOrFinalize (h : Consistent now answered s tr) {id : ℕ}
    {p : PendingSubmission} (hfind : s.pendingSubmissions.find id = some p)
    {answer : Answer} {outcome : SubmitOutcome} (hok : answer ≠ .ok)
    (houtcome : outcome = .ambiguous ↔ answer = .indeterminate)
    (reason : String) :
    Consistent now (id :: answered) (retryOrFinalizeSubmission now id outcome reason s).1
      (tr ++ .returned p.result.seq id answer ::
        (retryOrFinalizeSubmission now id outcome reason s).2) := by
  obtain ⟨hopen, hstart⟩ := h.opened id p hfind
  simp only [retryOrFinalizeSubmission, hfind, houtcome]
  by_cases hroom : p.attempts < maxSubmitAttempts
  · simp only [hasRemainingSubmitAttempts, hroom, decide_true, if_true]
    have hlater : Consistent now ([id] ++ answered) s tr := h.later 0 [id]
    exact Moves.consistent ⟨hfind,
      hopen.postpone p.result.seq id now answer reason hok hroom hstart,
      rfl, by simp [seqOf], by simp +contextual, hstart, Or.inl ⟨rfl, rfl⟩, (h.ids id p hfind).1,
      le_rfl, fun _ => ⟨answer, List.mem_singleton_self _⟩, fun i => by
        by_cases hi : i = id <;> simp [Table.find_insert, hi]⟩ hlater
  · simp only [hasRemainingSubmitAttempts, hroom, decide_false, Bool.false_eq_true, if_false,
      finalizeSubmission, Table.find_insert_self]
    have hlater : Consistent now ([id] ++ answered) s tr := h.later 0 [id]
    exact hlater.finish hfind (by simp [seqOf]) (by simp +contextual)
      (hopen.exhaust _ id answer _ hok (h.spent id p hfind)) rfl fun i => by
        by_cases hi : i = id <;> simp [Table.find_insert, Table.find_erase, hi]

theorem consistent_response (h : Consistent now answered s tr) {id : ℕ} (data : HttpData) :
    Consistent now (id :: answered) (onHttpData now id data s).1
      (tr ++ (onHttpData now id data s).2) := by
  have hlater : Consistent now ([id] ++ answered) s tr := h.later 0 [id]
  simp only [onHttpData]
  cases hfind : s.pendingSubmissions.find id with
  | none => simpa using hlater
  | some p =>
      obtain ⟨hopen, -⟩ := h.opened id p hfind
      cases hdec : decision id data with
      | accepted =>
          simp only [finalizeSubmission, hfind]
          exact hlater.finish hfind (by simp [seqOf]) (by simp +contextual)
            (hopen.accept _ id none) rfl
            fun i => s.pendingSubmissions.find_erase id i
      | rejected reason code =>
          exact consistent_retryOrFinalize h hfind (by simp [Decision.answer])
            (by simp [Decision.answer]) reason
      | indeterminate reason =>
          exact consistent_retryOrFinalize h hfind (by simp [Decision.answer])
            (by simp [Decision.answer]) reason

/-- A due submission starts its next attempt under a fresh id. -/
theorem consistent_retry (h : Consistent now answered s tr) {id : ℕ}
    (hdue : ∀ p, s.pendingSubmissions.find id = some p → p.retryDueMs ≤ now) :
    Consistent now answered (retrySubmission now id s).1 (tr ++ (retrySubmission now id s).2) := by
  unfold retrySubmission
  cases hfind : s.pendingSubmissions.find id with
  | none => simpa using h
  | some p =>
      dsimp only
      split
      · simpa using h
      · next hwait =>
        simp only [Bool.or_eq_true, decide_eq_true_eq, not_or] at hwait
        obtain ⟨hopen, -⟩ := h.opened id p hfind
        exact Moves.consistent ⟨hfind,
          hopen.retry p.result.seq s.sequence now hwait.1 (hdue p hfind),
          rfl, by simp [seqOf], by simp, le_rfl, Or.inr ⟨rfl, rfl, h.waiting id p hfind hwait.1⟩,
          Nat.lt_succ_self _, Nat.le_succ _, by simp, fun i => by
            rw [Table.find_insert, Table.find_erase]⟩ h

theorem retrySubmission_keeps {id other : ℕ} {p : PendingSubmission} (hlt : other < s.sequence)
    (hfind : (retrySubmission now id s).1.pendingSubmissions.find other = some p) :
    s.pendingSubmissions.find other = some p := by
  unfold retrySubmission at hfind
  split at hfind
  · exact hfind
  · dsimp only at hfind
    split at hfind
    · exact hfind
    · rw [Table.find_insert_of_ne _ hlt.ne, Table.find_erase] at hfind
      split at hfind
      · cases hfind
      · exact hfind

theorem retrySubmission_sequence (id : ℕ) :
    s.sequence ≤ (retrySubmission now id s).1.sequence := by
  unfold retrySubmission
  split
  · exact le_rfl
  · dsimp only
    split
    · exact le_rfl
    · exact Nat.le_succ _

theorem consistent_tick (h : Consistent now answered s tr) :
    Consistent now answered (tick now s).1 (tr ++ (tick now s).2) := by
  have hloop : ∀ (due : List ℕ) (s : State) (tr : List Output), Consistent now answered s tr →
      (∀ id ∈ due, id < s.sequence ∧
        ∀ p, s.pendingSubmissions.find id = some p → p.retryDueMs ≤ now) →
      Consistent now answered (forEach (retrySubmission now) due s).1
        (tr ++ (forEach (retrySubmission now) due s).2) := by
    intro due
    induction due with
    | nil => intro s tr h _; simpa [forEach, skip] using h
    | cons id rest ih =>
        intro s tr h hdue
        have hone := consistent_retry h (hdue id List.mem_cons_self).2
        have := ih _ _ hone fun other hother => by
          obtain ⟨hlt, hd⟩ := hdue other (List.mem_cons_of_mem _ hother)
          exact ⟨hlt.trans_le (retrySubmission_sequence id),
            fun p hp => hd p (retrySubmission_keeps hlt hp)⟩
        simpa [forEach, Handler.seq, List.append_assoc] using this
  refine hloop _ s tr h fun id hid => ?_
  obtain ⟨p, hp⟩ := (Table.mem_keys _).mp hid
  rw [Table.find_filter, Option.filter_eq_some_iff] at hp
  obtain ⟨hp, hdue⟩ := hp
  refine ⟨(h.ids id p hp).1, fun q hq => ?_⟩
  obtain rfl : p = q := Option.some.inj (hp.symm.trans hq)
  simp only [isSubmitRetryDue, Bool.and_eq_true, decide_eq_true_eq] at hdue
  exact hdue.2

end Handlers

section Runs

theorem step_live {sys : System} {e : ℕ × Event} (h : (step sys e).1.live = true) :
    sys.live = true := by
  unfold step at h
  split at h
  · simp_all
  · simp_all

theorem consistent_step {sys : System} {tr : List Output} {e : ℕ × Event}
    (h : Consistent sys.now sys.answered sys.client tr) (hlive : (step sys e).1.live = true) :
    Consistent (step sys e).1.now (step sys e).1.answered (step sys e).1.client
      (tr ++ (step sys e).2) := by
  have hsys := step_live hlive
  obtain ⟨elapsed, event⟩ := e
  have hlater : Consistent (sys.now + elapsed) ([] ++ sys.answered) sys.client tr :=
    h.later elapsed []
  cases event with
  | submit block => simpa [step, hsys] using consistent_submit hlater block
  | response id data =>
      by_cases hid : id ∈ sys.answered
      · simpa [step, hsys, hid] using h.later elapsed [id]
      · simpa [step, hsys, hid] using consistent_response hlater data
  | tick => simpa [step, hsys] using consistent_tick hlater
  | disconnect => simpa [step, hsys] using consistent_disconnect _ _ hlater
  | destroy => simp [step, hsys] at hlive
  | otherRequests count =>
      simp only [step, hsys, Bool.not_true, Bool.false_eq_true, if_false, List.append_nil]
      refine ⟨fun q hq => hlater.fresh q (le_trans (Nat.le_add_right _ _) hq), fun id p hp => ?_,
        hlater.opened, hlater.known, hlater.waiting, hlater.current, hlater.spent,
          hlater.unique, hlater.closed⟩
      have := hlater.ids id p hp
      dsimp only
      omega

theorem reachable_consistent (es : ℕ → ℕ × Event) (k : ℕ)
    (hlive : (machine.state es k).live = true) :
    Consistent (machine.state es k).now (machine.state es k).answered (machine.state es k).client
      (machine.trace es k) := by
  have h := @Machine.invariant_trace _ _ _ machine es
    (fun sys tr => sys.live = true → Consistent sys.now sys.answered sys.client tr)
    (fun _ => ⟨fun _ _ => rfl, by simp [machine], by simp [machine], by simp [machine],
      by simp [machine], by simp [machine], by simp [machine], by simp [machine],
      by simp [history]⟩)
    (fun _ _ _ h hlive => consistent_step (h (step_live hlive)) hlive) k
  exact h hlive

end Runs

end XmrigProxy.SubmissionLaws
