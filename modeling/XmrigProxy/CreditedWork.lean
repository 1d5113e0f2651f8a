import XmrigProxy.Library.Ledger
import XmrigProxy.RoundStore
import Mathlib.Algebra.Group.Prod

/-! The rounds are the accounts of a ledger, and every accepted share is one entry. A row counts
once, because the position of its stream has passed it when it is credited. -/
namespace XmrigProxy

namespace SQLiteStore

open Ledger

variable {κ : Type}

/-- What a share adds to its round: its assigned difficulty, its own difficulty, and one share. -/
def work (e : String × EventRow) : ℕ × ℕ × ℕ := (e.2.minerTargetDiff, e.2.shareDiff, 1)

def ledger (s : Store κ) : Ledger ℕ (String × EventRow) (ℕ × ℕ × ℕ) where
  balances := s.rounds.map fun r => (r.id, r.creditedHashes, r.observedDiffSum, r.acceptedShares)
  total := (s.creditedHashesTotal, s.observedDiffTotal, s.credits.length)
  entries := s.credits.map fun c => (c.roundId, c.streamKey, c.row)

structure Credited (s : Store κ) : Prop where
  balanced : (ledger s).Balanced work
  fresh : ∀ r ∈ s.rounds, r.id < s.nextRoundId
  once : (s.credits.map fun c => (c.streamKey, c.row.eventSeq)).Nodup
  passed : ∀ c ∈ s.credits, ∃ p, s.position c.streamKey = some p ∧ c.row.eventSeq ≤ p
  accepted : ∀ c ∈ s.credits, isAcceptedShare c.row = true ∧ 0 < c.row.minerTargetDiff
  keyed : ∀ c ∈ s.credits, c.row.streamId ≠ "" → c.streamKey = c.row.streamId

/-- The row that the position of its stream is at, and that was not credited. -/
structure Next (key : String) (row : EventRow) (s : Store κ) : Prop where
  position : s.position key = some row.eventSeq
  later : ∀ c ∈ s.credits, c.streamKey = key → c.row.eventSeq < row.eventSeq
  keyed : row.streamId ≠ "" → key = row.streamId

section Operations

variable {s : Store κ} {cfg : Settings κ} {i : ℕ}

theorem ledger_updateRound {f : Round → Round}
    (hf : ∀ r, (f r).id = r.id ∧ (f r).creditedHashes = r.creditedHashes ∧
      (f r).observedDiffSum = r.observedDiffSum ∧ (f r).acceptedShares = r.acceptedShares) :
    ledger (s.updateRound i f) = ledger s := by
  unfold ledger Store.updateRound
  dsimp only
  rw [List.map_map]
  congr 1
  refine List.map_congr_left fun r _ => ?_
  obtain ⟨hid, hcredited, hobserved, haccepted⟩ := hf r
  dsimp only [Function.comp]
  split
  · rw [hid, hcredited, hobserved, haccepted]
  · rfl

theorem fresh_updateRound {f : Round → Round} (hf : ∀ r, (f r).id = r.id)
    (h : ∀ r ∈ s.rounds, r.id < s.nextRoundId) :
    ∀ r ∈ (s.updateRound i f).rounds, r.id < (s.updateRound i f).nextRoundId := by
  intro r hr
  obtain ⟨r', hr', rfl⟩ := List.mem_map.mp hr
  have hlt := h r' hr'
  split
  · rw [hf]
    exact hlt
  · exact hlt

theorem credited_updateRound {f : Round → Round}
    (hf : ∀ r, (f r).id = r.id ∧ (f r).creditedHashes = r.creditedHashes ∧
      (f r).observedDiffSum = r.observedDiffSum ∧ (f r).acceptedShares = r.acceptedShares)
    (h : Credited s) : Credited (s.updateRound i f) where
  balanced := by
    rw [ledger_updateRound hf]
    exact h.balanced
  fresh := fresh_updateRound (fun r => (hf r).1) h.fresh
  once := h.once
  passed := h.passed
  accepted := h.accepted
  keyed := h.keyed

theorem credited_insertRound (coverageComplete : Bool) (h : Credited s) :
    Credited (s.insertRound coverageComplete) where
  balanced := by
    have hopen : ledger (s.insertRound coverageComplete) =
        (ledger s).openAccount s.nextRoundId := by
      unfold ledger Store.insertRound openAccount
      dsimp only
      rw [List.map_append]
      rfl
    rw [hopen]
    apply balanced_openAccount h.balanced
    intro hmem
    obtain ⟨b, hb, hid⟩ := List.mem_map.mp hmem
    obtain ⟨r, hr, rfl⟩ := List.mem_map.mp hb
    have hlt := h.fresh r hr
    dsimp only at hid
    omega
  fresh := by
    intro r hr
    rcases List.mem_append.mp hr with hr | hr
    · have hlt := h.fresh r hr
      change r.id < s.nextRoundId + 1
      omega
    · rw [List.mem_singleton.mp hr]
      exact Nat.lt_succ_self s.nextRoundId
  once := h.once
  passed := h.passed
  accepted := h.accepted
  keyed := h.keyed

theorem credited_markIncomplete (i : ℕ) (h : Credited s) : Credited (s.markIncomplete i) :=
  have hmarked : Credited (s.markRound i) :=
    credited_updateRound (fun _ => ⟨rfl, rfl, rfl, rfl⟩) h
  ⟨hmarked.balanced, hmarked.fresh, hmarked.once, hmarked.passed, hmarked.accepted, hmarked.keyed⟩

/-- The tables that the ledger is not read from. -/
theorem credited_of_eq {s' : Store κ} (h : Credited s) (hledger : ledger s' = ledger s)
    (hrounds : s'.rounds = s.rounds) (hnext : s'.nextRoundId = s.nextRoundId)
    (hcredits : s'.credits = s.credits) (hposition : s'.position = s.position) : Credited s' where
  balanced := by
    rw [hledger]
    exact h.balanced
  fresh := by
    rw [hrounds, hnext]
    exact h.fresh
  once := by
    rw [hcredits]
    exact h.once
  passed := by
    rw [hcredits, hposition]
    exact h.passed
  accepted := by
    rw [hcredits]
    exact h.accepted
  keyed := by
    rw [hcredits]
    exact h.keyed

theorem credited_recoverClosingRound (incoming : Option EventRow) (h : Credited s) :
    Credited (recoverClosingRound incoming s) := by
  unfold recoverClosingRound
  split
  · exact h
  · split
    · exact credited_markIncomplete _ h
    · split
      · exact h
      · next round _ _ block _ _ =>
        dsimp only
        have hclosed := credited_updateRound (s := s) (i := round.id)
          (f := fun r => { r with
            active := false
            coverageComplete := false }) (fun _ => ⟨rfl, rfl, rfl, rfl⟩) h
        have hmarked : Credited { (s.updateRound round.id fun r => { r with
            active := false
            coverageComplete := false }).updateBlock block.id (fun b => { b with
              roundClosed := true }) with
            closings := s.closings ++ [Closing.mk round.id block.id] } :=
          credited_of_eq hclosed rfl rfl rfl rfl rfl
        exact credited_of_eq (credited_insertRound false hmarked) rfl rfl rfl rfl rfl

theorem credited_closeRound (roundId blockId : ℕ) (h : Credited s) :
    Credited (closeRound roundId blockId s) := by
  unfold closeRound
  dsimp only
  have hclosed := credited_updateRound (s := s) (i := roundId)
    (f := fun r => { r with
      active := false
      closingBlockId := some blockId }) (fun _ => ⟨rfl, rfl, rfl, rfl⟩) h
  exact credited_insertRound true (credited_of_eq hclosed rfl rfl rfl rfl rfl)

theorem credited_submissionEvent (cfg : Settings κ) (key : String) (row : EventRow)
    (h : Credited s) : Credited (submissionEvent cfg key row s) := by
  unfold submissionEvent
  split
  · refine credited_of_eq (?_ : Credited (insertBlock cfg key row s)) rfl rfl rfl rfl rfl
    unfold insertBlock
    split
    · exact h
    · dsimp only
      split
      · refine credited_updateRound (fun _ => ⟨rfl, rfl, rfl, rfl⟩) ?_
        exact credited_of_eq h rfl rfl rfl rfl rfl
      · exact credited_of_eq h rfl rfl rfl rfl rfl
  · exact h

end Operations

section Unread

variable {s : Store κ} {cfg : Settings κ} {key : String} {row : EventRow}

theorem reads_recoverClosingRound (incoming : Option EventRow) (s : Store κ) :
    (recoverClosingRound incoming s).credits = s.credits ∧
      (recoverClosingRound incoming s).position = s.position ∧
      (recoverClosingRound incoming s).runId = s.runId := by
  unfold recoverClosingRound
  split
  · exact ⟨rfl, rfl, rfl⟩
  · split
    · exact ⟨rfl, rfl, rfl⟩
    · split
      · exact ⟨rfl, rfl, rfl⟩
      · exact ⟨rfl, rfl, rfl⟩

theorem reads_submissionEvent (cfg : Settings κ) (key : String) (row : EventRow) (s : Store κ) :
    (submissionEvent cfg key row s).credits = s.credits ∧
      (submissionEvent cfg key row s).position = s.position := by
  have hinsert : (insertBlock cfg key row s).credits = s.credits ∧
      (insertBlock cfg key row s).position = s.position := by
    unfold insertBlock
    split
    · exact ⟨rfl, rfl⟩
    · dsimp only
      split
      · exact ⟨rfl, rfl⟩
      · exact ⟨rfl, rfl⟩
  unfold submissionEvent
  split
  · exact hinsert
  · exact ⟨rfl, rfl⟩

theorem Next.congr {s' : Store κ} (h : Next key row s) (hcredits : s'.credits = s.credits)
    (hposition : s'.position = s.position) : Next key row s' := by
  refine ⟨?_, ?_, h.keyed⟩
  · rw [hposition]
    exact h.position
  · rw [hcredits]
    exact h.later

theorem credited_noteGap (row : EventRow) (gap : Bool) (h : Credited s) :
    Credited (noteGap row gap s) ∧ (noteGap row gap s).credits = s.credits ∧
      (noteGap row gap s).position = s.position := by
  unfold noteGap
  split
  · obtain ⟨hcredits, hposition, -⟩ :=
      reads_recoverClosingRound (some row) (s.markIncomplete s.currentRoundId)
    exact ⟨credited_recoverClosingRound _ (credited_markIncomplete _ h), hcredits, hposition⟩
  · exact ⟨h, rfl, rfl⟩

/-- A row that is not ignored moves the position of its stream past every credited row. -/
theorem next_observePosition {session : ℕ} {observed : Store κ} (h : Credited s)
    (hobserve : observePosition row session s = some observed) :
    Credited observed ∧ Next (s.streamKey row session) row observed := by
  unfold observePosition at hobserve
  dsimp only at hobserve
  generalize hkey : s.streamKey row session = key at hobserve ⊢
  split at hobserve
  · cases hobserve
  · next hseen =>
    cases hobserve
    obtain ⟨hcredited, hcredits, hposition⟩ := credited_noteGap row _ h
    generalize noteGap row _ s = marked at hcredited hcredits hposition ⊢
    have hlater : ∀ c ∈ s.credits, c.streamKey = key → c.row.eventSeq < row.eventSeq := by
      intro c hc heq
      obtain ⟨p, hp, hle⟩ := h.passed c hc
      rw [heq] at hp
      rw [hp, Option.any_some, decide_eq_true_eq] at hseen
      omega
    refine ⟨⟨hcredited.balanced, hcredited.fresh, hcredited.once, ?_, hcredited.accepted,
      hcredited.keyed⟩, ?_, ?_, ?_⟩
    · intro c hc
      dsimp only at hc ⊢
      by_cases heq : c.streamKey = key
      · rw [heq, Function.update_self]
        rw [hcredits] at hc
        exact ⟨row.eventSeq, rfl, Nat.le_of_lt (hlater c hc heq)⟩
      · rw [Function.update_of_ne heq]
        exact hcredited.passed c hc
    · exact Function.update_self _ _ _
    · intro c hc
      dsimp only at hc
      rw [hcredits] at hc
      exact hlater c hc
    · intro hstream
      rw [← hkey]
      unfold Store.streamKey
      rw [if_pos hstream]

theorem ledger_creditRound (key : String) (row : EventRow) (roundId : ℕ) (s : Store κ) :
    ledger (creditRound key row roundId s) = (ledger s).post work roundId (key, row) := by
  unfold ledger creditRound Store.updateRound post
  dsimp only
  rw [List.map_map, List.map_map, List.map_append, List.length_append]
  congr 1
  refine List.map_congr_left fun r _ => ?_
  dsimp only [Function.comp]
  split <;> rfl

/-- The share goes to a round that there is. -/
theorem credited_creditRound {roundId : ℕ} (h : Credited s) (hnext : Next key row s)
    (haccepted : isAcceptedShare row = true) (htarget : 0 < row.minerTargetDiff)
    (hround : s.findRound roundId ≠ none) : Credited (creditRound key row roundId s) where
  balanced := by
    rw [ledger_creditRound]
    apply balanced_post h.balanced
    obtain ⟨r, hr⟩ := Option.ne_none_iff_exists'.mp hround
    obtain ⟨hmem, hid⟩ := Store.mem_of_findRound hr
    unfold ledger
    rw [List.map_map, ← hid]
    exact List.mem_map_of_mem (f := fun r : Round => r.id) hmem
  fresh := fresh_updateRound (fun _ => rfl) h.fresh
  once := by
    change ((s.credits ++ [Credit.mk key row roundId]).map fun c =>
      (c.streamKey, c.row.eventSeq)).Nodup
    rw [List.map_append]
    refine List.nodup_append.mpr ⟨h.once, List.nodup_singleton _, ?_⟩
    intro a ha b hb heq
    obtain ⟨c, hc, rfl⟩ := List.mem_map.mp ha
    rw [List.map_singleton, List.mem_singleton] at hb
    rw [hb] at heq
    injection heq with hstream hseq
    have hlt := hnext.later c hc hstream
    dsimp only at hseq
    omega
  passed := by
    intro c hc
    rcases List.mem_append.mp hc with hc | hc
    · exact h.passed c hc
    · rw [List.mem_singleton.mp hc]
      exact ⟨row.eventSeq, hnext.position, Nat.le_refl _⟩
  accepted := by
    intro c hc
    rcases List.mem_append.mp hc with hc | hc
    · exact h.accepted c hc
    · rw [List.mem_singleton.mp hc]
      exact ⟨haccepted, htarget⟩
  keyed := by
    intro c hc
    rcases List.mem_append.mp hc with hc | hc
    · exact h.keyed c hc
    · rw [List.mem_singleton.mp hc]
      exact hnext.keyed

end Unread

section Sums

variable {s : Store κ}

theorem sum_work (l : List Credit) : (l.map fun c => work (c.streamKey, c.row)).sum =
    ((l.map fun c => c.row.minerTargetDiff).sum, (l.map fun c => c.row.shareDiff).sum,
      l.length) := by
  induction l with
  | nil => rfl
  | cons c rest ih =>
      simp only [List.map_cons, List.sum_cons, List.length_cons]
      rw [ih, Nat.add_comm rest.length 1]
      rfl

theorem sum_rounds (l : List Round) :
    (l.map fun r => (r.creditedHashes, r.observedDiffSum, r.acceptedShares)).sum =
      ((l.map Round.creditedHashes).sum, (l.map Round.observedDiffSum).sum,
        (l.map Round.acceptedShares).sum) := by
  induction l with
  | nil => rfl
  | cons r rest ih =>
      simp only [List.map_cons, List.sum_cons]
      rw [ih]
      rfl

theorem Credited.round (h : Credited s) {r : Round} (hr : r ∈ s.rounds) :
    (r.creditedHashes, r.observedDiffSum, r.acceptedShares) =
      (let own := s.credits.filter fun c => c.roundId = r.id
       ((own.map fun c => c.row.minerTargetDiff).sum, (own.map fun c => c.row.shareDiff).sum,
         own.length)) := by
  have hbalance := h.balanced.balance _ (List.mem_map_of_mem hr)
  unfold posted ledger at hbalance
  dsimp only at hbalance ⊢
  rw [hbalance, List.filter_map, List.map_map, ← sum_work]
  rfl

theorem Credited.sums (h : Credited s) :
    ((s.rounds.map Round.creditedHashes).sum, (s.rounds.map Round.observedDiffSum).sum,
        (s.rounds.map Round.acceptedShares).sum) =
      (s.creditedHashesTotal, s.observedDiffTotal, s.credits.length) ∧
    (s.creditedHashesTotal, s.observedDiffTotal, s.credits.length) =
      ((s.credits.map fun c => c.row.minerTargetDiff).sum,
        (s.credits.map fun c => c.row.shareDiff).sum, s.credits.length) := by
  have hsum := h.balanced.sum
  have htotal := h.balanced.total
  unfold ledger at hsum htotal
  dsimp only at hsum htotal
  rw [List.map_map] at hsum htotal
  refine ⟨?_, ?_⟩
  · rw [← sum_rounds, ← hsum]
    rfl
  · rw [← sum_work, htotal]
    rfl

theorem Credited.existsUnique_round (h : Credited s) {c : Credit} (hc : c ∈ s.credits) :
    ∃! r, r ∈ s.rounds ∧ r.id = c.roundId := by
  have hknown := h.balanced.known _ (List.mem_map_of_mem hc)
  have hnodup := h.balanced.nodup
  unfold ledger at hknown hnodup
  dsimp only at hknown hnodup
  rw [List.map_map] at hknown hnodup
  obtain ⟨r, hr, hid⟩ := List.mem_map.mp hknown
  refine ⟨r, ⟨hr, hid⟩, ?_⟩
  rintro r' ⟨hr', hid'⟩
  exact List.inj_on_of_nodup_map hnodup hr' hr (hid'.trans hid.symm)

end Sums

section Steps

variable {s : Store κ}

theorem credited_start (runId : String) : Credited (start runId : Store κ) := by
  have hempty : Credited ({ runId
                            tracking := true
                            eventCoverageComplete := true } : Store κ) :=
    ⟨balanced_empty, fun _ hr => absurd hr List.not_mem_nil, List.nodup_nil,
      fun _ hc => absurd hc List.not_mem_nil, fun _ hc => absurd hc List.not_mem_nil,
      fun _ hc => absurd hc List.not_mem_nil⟩
  exact credited_insertRound false hempty

theorem credited_resumeRound (boundary : Bool) (h : Credited s) :
    Credited (resumeRound boundary s) := by
  unfold resumeRound
  split
  · exact credited_insertRound _ h
  · next current _ =>
    dsimp only
    refine credited_of_eq (?_ : Credited (if boundary = true then s else s.markRound current.id))
      rfl rfl rfl rfl rfl
    split
    · exact h
    · exact credited_updateRound (fun _ => ⟨rfl, rfl, rfl, rfl⟩) h

theorem credited_initializeStore (runId : String) (h : Credited s) :
    Credited (initializeStore runId s) := by
  have hstarted : Credited { s with
      runId
      tracking := true
      eventCoverageComplete := !s.tracking } := credited_of_eq h rfl rfl rfl rfl rfl
  have hresumed := credited_resumeRound (!s.tracking) hstarted
  unfold initializeStore
  dsimp only
  split
  · exact hresumed
  · exact credited_recoverClosingRound none hresumed

theorem credits_initializeStore (runId : String) (s : Store κ) :
    (initializeStore runId s).credits = s.credits := by
  have hresumed : ∀ (boundary : Bool) (s : Store κ),
      (resumeRound boundary s).credits = s.credits := by
    intro boundary s
    unfold resumeRound
    split
    · rfl
    · dsimp only
      split
      · rfl
      · rfl
  unfold initializeStore
  dsimp only
  split
  · exact hresumed _ _
  · obtain ⟨hcredits, -, -⟩ := reads_recoverClosingRound none (resumeRound (!s.tracking) { s with
      runId
      tracking := true
      eventCoverageComplete := !s.tracking })
    rw [hcredits, hresumed]

variable [DecidableEq κ] {cfg : Settings κ} {key : String} {row : EventRow}

theorem credited_acceptedShare (h : Credited s) (hnext : Next key row s) :
    Credited (acceptedShare cfg key row s) := by
  unfold acceptedShare
  split
  · next haccepted =>
    split
    · exact credited_markIncomplete _ h
    · next htarget =>
      dsimp only
      generalize hbranch : (if row.networkTargetDiff = 0 then s.markIncomplete s.currentRoundId
        else s) = marked
      have hmarked : Credited marked ∧ Next key row marked := by
        rw [← hbranch]
        split
        · exact ⟨credited_markIncomplete _ h, hnext.congr rfl rfl⟩
        · exact ⟨h, hnext⟩
      split
      · exact hmarked.1
      · next hround =>
        have hfound : marked.findRound (((correlatedBlock cfg row marked).map Block.roundId).getD
            marked.currentRoundId) ≠ none := by
          intro hnone
          rw [hnone] at hround
          exact hround rfl
        have hcredited := credited_creditRound hmarked.1 hmarked.2 haccepted
          (Nat.pos_of_ne_zero htarget) hfound
        generalize ((correlatedBlock cfg row marked).map Block.roundId).getD
          marked.currentRoundId = roundId at hcredited ⊢
        split
        · split
          · exact hcredited
          · exact credited_closeRound _ _ hcredited
        · exact hcredited
  · exact h

theorem credited_step (h : Credited s) (input : Input) : Credited (step cfg s input) := by
  cases input with
  | event row session =>
      change Credited (handleEvent cfg row session s)
      unfold handleEvent
      split
      · exact h
      · next observed hobserve =>
        obtain ⟨hobserved, hnext⟩ := next_observePosition h hobserve
        obtain ⟨hcredits, hposition⟩ :=
          reads_submissionEvent cfg (s.streamKey row session) row observed
        exact credited_acceptedShare (credited_submissionEvent cfg _ row hobserved)
          (hnext.congr hcredits hposition)
  | incomplete => exact credited_recoverClosingRound none (credited_markIncomplete _ h)
  | dropped => exact credited_markIncomplete _ h
  | restart runId => exact credited_initializeStore runId h

theorem credits_acceptedShare (key : String) (row : EventRow) (s : Store κ) :
    ∀ c ∈ (acceptedShare cfg key row s).credits, c ∈ s.credits ∨ c.row = row := by
  intro c hc
  unfold acceptedShare at hc
  split at hc
  · split at hc
    · exact Or.inl hc
    · dsimp only at hc
      generalize hbranch : (if row.networkTargetDiff = 0 then s.markIncomplete s.currentRoundId
        else s) = marked at hc
      have hmarked : marked.credits = s.credits := by
        rw [← hbranch]
        split
        · rfl
        · rfl
      rw [← hmarked]
      generalize ((correlatedBlock cfg row marked).map Block.roundId).getD
        marked.currentRoundId = roundId at hc
      have hcredit : c ∈ marked.credits ++ [Credit.mk key row roundId] →
          c ∈ marked.credits ∨ c.row = row := by
        intro hc
        rcases List.mem_append.mp hc with hc | hc
        · exact Or.inl hc
        · rw [List.mem_singleton.mp hc]
          exact Or.inr rfl
      split at hc
      · exact Or.inl hc
      · split at hc
        · split at hc
          · exact hcredit hc
          · exact hcredit hc
        · exact hcredit hc
  · exact Or.inl hc

/-- Nothing is credited that was not received. -/
theorem credits_step (input : Input) (s : Store κ) :
    ∀ c ∈ (step cfg s input).credits, c ∈ s.credits ∨ ∃ session, input = .event c.row session := by
  intro c hc
  cases input with
  | event row session =>
      change c ∈ (handleEvent cfg row session s).credits at hc
      unfold handleEvent at hc
      split at hc
      · exact Or.inl hc
      · next observed hobserve =>
        have hobserved : observed.credits = s.credits := by
          unfold observePosition at hobserve
          dsimp only at hobserve
          split at hobserve
          · cases hobserve
          · cases hobserve
            dsimp only
            unfold noteGap
            split
            · exact (reads_recoverClosingRound _ _).1
            · rfl
        rcases credits_acceptedShare _ _ _ c hc with hc | hrow
        · rw [(reads_submissionEvent cfg _ row observed).1, hobserved] at hc
          exact Or.inl hc
        · exact Or.inr ⟨session, by rw [hrow]⟩
  | incomplete =>
      change c ∈ (recoverClosingRound none _).credits at hc
      rw [(reads_recoverClosingRound none _).1] at hc
      exact Or.inl hc
  | dropped => exact Or.inl hc
  | restart runId =>
      change c ∈ (initializeStore runId s).credits at hc
      rw [credits_initializeStore] at hc
      exact Or.inl hc

theorem credits_run (inputs : List Input) (s : Store κ) :
    ∀ c ∈ (run cfg inputs s).credits,
      c ∈ s.credits ∨ ∃ session, Input.event c.row session ∈ inputs := by
  induction inputs generalizing s with
  | nil => exact fun c hc => Or.inl hc
  | cons input rest ih =>
      intro c hc
      rcases ih (step cfg s input) c hc with hc | ⟨session, hmem⟩
      · rcases credits_step input s c hc with hc | ⟨session, heq⟩
        · exact Or.inl hc
        · exact Or.inr ⟨session, heq ▸ List.mem_cons_self⟩
      · exact Or.inr ⟨session, List.mem_cons_of_mem _ hmem⟩

theorem credited_run (inputs : List Input) (h : Credited s) : Credited (run cfg inputs s) := by
  induction inputs generalizing s with
  | nil => exact h
  | cons input rest ih => exact ih (credited_step h input)

/-- Whatever rows, losses and restarts the store meets: an accepted share is credited once, to one
round, and every round and the totals hold the work of the shares credited to them. -/
theorem credited_once_and_conserved (cfg : Settings κ) (runId : String) (inputs : List Input) :
    let s := run cfg inputs (start runId)
    (s.credits.map fun c => (c.streamKey, c.row.eventSeq)).Nodup ∧
    (∀ c ∈ s.credits, isAcceptedShare c.row = true ∧ (∃ session, .event c.row session ∈ inputs) ∧
      (c.row.streamId ≠ "" → c.streamKey = c.row.streamId) ∧
      ∃! r, r ∈ s.rounds ∧ r.id = c.roundId) ∧
    (∀ r ∈ s.rounds, let own := s.credits.filter fun c => c.roundId = r.id
      r.creditedHashes = (own.map fun c => c.row.minerTargetDiff).sum ∧
      r.observedDiffSum = (own.map fun c => c.row.shareDiff).sum ∧
      r.acceptedShares = own.length) ∧
    (s.rounds.map Round.creditedHashes).sum = s.creditedHashesTotal ∧
    s.creditedHashesTotal = (s.credits.map fun c => c.row.minerTargetDiff).sum ∧
    (s.rounds.map Round.observedDiffSum).sum = s.observedDiffTotal ∧
    s.observedDiffTotal = (s.credits.map fun c => c.row.shareDiff).sum ∧
    (s.rounds.map Round.acceptedShares).sum = s.credits.length := by
  intro s
  have h : Credited s := credited_run inputs (credited_start runId)
  have hreceived : ∀ c ∈ s.credits, ∃ session, Input.event c.row session ∈ inputs := by
    intro c hc
    rcases credits_run inputs (start runId) c hc with hc | hsession
    · exact absurd hc List.not_mem_nil
    · exact hsession
  have hsums := h.sums
  simp only [Prod.mk.injEq] at hsums
  obtain ⟨⟨hcredited, hobserved, haccepted⟩, htarget, hdiff, -⟩ := hsums
  refine ⟨h.once, fun c hc => ?_, fun r hr => ?_, hcredited, htarget, hobserved, hdiff, haccepted⟩
  · exact ⟨(h.accepted c hc).1, hreceived c hc, h.keyed c hc, h.existsUnique_round hc⟩
  · have hround := h.round hr
    simp only [Prod.mk.injEq] at hround
    exact hround

end Steps

end SQLiteStore

end XmrigProxy
