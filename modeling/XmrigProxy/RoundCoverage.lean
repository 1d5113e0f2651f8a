import XmrigProxy.CreditedWork
import XmrigProxy.RoundInvariants
import Mathlib.Data.List.Forall2

/-! The coverage of the rounds. No decision of the store depends on it, it is only ever lost, and
what marks the current round leaves no open round that counts as complete. -/
namespace XmrigProxy

namespace SQLiteStore

variable {κ : Type}

section Dims

def Round.Dims (r r' : Round) : Prop := r' = r ∨ r' = { r with coverageComplete := false }

/-- Two stores that only differ in that the second one counts fewer rounds as complete. -/
structure Dims (s t : Store κ) : Prop where
  rounds : List.Forall₂ Round.Dims s.rounds t.rounds
  blocks : t.blocks = s.blocks
  runId : t.runId = s.runId
  position : t.position = s.position
  currentRoundId : t.currentRoundId = s.currentRoundId
  nextRoundId : t.nextRoundId = s.nextRoundId
  nextBlockId : t.nextBlockId = s.nextBlockId

variable {s t : Store κ}

theorem Round.Dims.eqs {r r' : Round} (h : r.Dims r') : r'.id = r.id ∧ r'.active = r.active ∧
    r'.closingBlockId = r.closingBlockId ∧
      (r'.coverageComplete = true → r.coverageComplete = true) := by
  rcases h with rfl | rfl
  · exact ⟨rfl, rfl, rfl, fun h => h⟩
  · exact ⟨rfl, rfl, rfl, fun h => absurd h Bool.false_ne_true⟩

theorem Dims.refl (s : Store κ) : Dims s s where
  rounds := List.forall₂_same.mpr fun _ _ => Or.inl rfl
  blocks := rfl
  runId := rfl
  position := rfl
  currentRoundId := rfl
  nextRoundId := rfl
  nextBlockId := rfl

theorem Dims.updateRound {f : Round → Round} (hf : ∀ r r', r.Dims r' → (f r).Dims (f r')) (i : ℕ)
    (h : Dims s t) : Dims (s.updateRound i f) (t.updateRound i f) where
  rounds := by
    refine List.forall₂_map_left_iff.mpr (List.forall₂_map_right_iff.mpr ?_)
    refine h.rounds.imp fun r r' hr => ?_
    rw [hr.eqs.1]
    split
    · exact hf r r' hr
    · exact hr
  blocks := h.blocks
  runId := h.runId
  position := h.position
  currentRoundId := h.currentRoundId
  nextRoundId := h.nextRoundId
  nextBlockId := h.nextBlockId

/-- A change that treats the coverage as it is, or takes it away. -/
theorem dims_of_eq {f : Round → Round}
    (hf : ∀ r, f { r with coverageComplete := false } = { f r with coverageComplete := false }) :
    ∀ r r' : Round, r.Dims r' → (f r).Dims (f r') := by
  rintro r r' (rfl | rfl)
  · exact Or.inl rfl
  · exact Or.inr (hf r)

theorem Dims.markIncomplete (i : ℕ) (h : Dims s t) :
    Dims (s.markIncomplete i) (t.markIncomplete i) :=
  have hmarked := h.updateRound (dims_of_eq (f := fun r => { r with coverageComplete := false })
    fun _ => rfl) i
  ⟨hmarked.rounds, h.blocks, h.runId, h.position, h.currentRoundId, h.nextRoundId, h.nextBlockId⟩

/-- Losing the coverage of a round. -/
theorem dims_markIncomplete (i : ℕ) (s : Store κ) : Dims s (s.markIncomplete i) where
  rounds := by
    refine List.forall₂_map_right_iff.mpr (List.forall₂_same.mpr fun r _ => ?_)
    dsimp only
    split
    · exact Or.inr rfl
    · exact Or.inl rfl
  blocks := rfl
  runId := rfl
  position := rfl
  currentRoundId := rfl
  nextRoundId := rfl
  nextBlockId := rfl

theorem Dims.insertRound (complete : Bool) (h : Dims s t) :
    Dims (s.insertRound complete) (t.insertRound complete) where
  rounds := by
    unfold Store.insertRound
    rw [h.nextRoundId]
    exact List.rel_append h.rounds (List.Forall₂.cons (Or.inl rfl) List.Forall₂.nil)
  blocks := h.blocks
  runId := h.runId
  position := h.position
  currentRoundId := h.nextRoundId
  nextRoundId := congrArg (· + 1) h.nextRoundId
  nextBlockId := h.nextBlockId

/-- A search that does not look at the coverage finds the same round. -/
theorem find?_dims {p : Round → Bool} (hp : ∀ r r', r.Dims r' → p r' = p r) {l l' : List Round}
    (h : List.Forall₂ Round.Dims l l') : Option.Rel Round.Dims (l.find? p) (l'.find? p) := by
  induction h with
  | nil => exact Option.Rel.none
  | @cons r r' l l' hr _ ih =>
      rw [List.find?_cons, List.find?_cons, hp r r' hr]
      split
      · exact Option.Rel.some hr
      · exact ih

theorem isNone_findRound_dims (h : Dims s t) (i : ℕ) :
    (t.findRound i).isNone = (s.findRound i).isNone := by
  have hfind : Option.Rel Round.Dims (s.findRound i) (t.findRound i) :=
    find?_dims (fun r r' hr => by rw [hr.eqs.1]) h.rounds
  generalize s.findRound i = x at hfind
  generalize t.findRound i = y at hfind
  cases hfind with
  | none => rfl
  | some _ => rfl

theorem Dims.recoverClosingRound (incoming : Option EventRow) (h : Dims s t) :
    Dims (recoverClosingRound incoming s) (SQLiteStore.recoverClosingRound incoming t) := by
  have hfind : Option.Rel Round.Dims
      (s.rounds.reverse.find? fun r => r.active && r.closingBlockId.isSome)
      (t.rounds.reverse.find? fun r => r.active && r.closingBlockId.isSome) := by
    refine find?_dims (fun r r' hr => ?_) (List.rel_reverse h.rounds)
    rw [hr.eqs.2.1, hr.eqs.2.2.1]
  unfold SQLiteStore.recoverClosingRound Store.findBlock
  rw [h.blocks]
  generalize s.rounds.reverse.find? _ = x at hfind ⊢
  generalize t.rounds.reverse.find? _ = y at hfind ⊢
  cases hfind with
  | none => exact h
  | @some r r' hr =>
      obtain ⟨hid, -, hclosing, -⟩ := hr.eqs
      dsimp only
      rw [hid, hclosing]
      split
      · exact h.markIncomplete r.id
      · split
        · exact h
        · next block _ _ =>
          have hclosed := h.updateRound (dims_of_eq (f := fun r => { r with
            active := false
            coverageComplete := false }) fun _ => rfl) r.id
          have hmarked : Dims ((s.updateRound r.id fun r => { r with
              active := false
              coverageComplete := false }).updateBlock block.id fun b => { b with
                roundClosed := true }) ((t.updateRound r.id fun r => { r with
              active := false
              coverageComplete := false }).updateBlock block.id fun b => { b with
                roundClosed := true }) := by
            refine ⟨hclosed.rounds, ?_, h.runId, h.position, h.currentRoundId, h.nextRoundId,
              h.nextBlockId⟩
            unfold Store.updateBlock Store.updateRound
            dsimp only
            rw [h.blocks]
          have hopened := hmarked.insertRound false
          exact ⟨hopened.rounds, hopened.blocks, h.runId, h.position, hopened.currentRoundId,
            hopened.nextRoundId, h.nextBlockId⟩

theorem Dims.noteGap (row : EventRow) (gap : Bool) (h : Dims s t) :
    Dims (noteGap row gap s) (SQLiteStore.noteGap row gap t) := by
  unfold SQLiteStore.noteGap
  rw [h.currentRoundId]
  split
  · exact (h.markIncomplete _).recoverClosingRound _
  · exact h

theorem Dims.streamKey (row : EventRow) (session : ℕ) (h : Dims s t) :
    t.streamKey row session = s.streamKey row session := by
  unfold Store.streamKey
  rw [h.runId]

theorem Dims.observePosition (row : EventRow) (session : ℕ) (h : Dims s t) :
    Option.Rel Dims (observePosition row session s)
      (SQLiteStore.observePosition row session t) := by
  unfold SQLiteStore.observePosition
  rw [h.streamKey, h.position]
  dsimp only
  split
  · exact Option.Rel.none
  · have hnoted := h.noteGap row (sequenceGap row (s.position (s.streamKey row session)))
    refine Option.Rel.some ⟨hnoted.rounds, hnoted.blocks, hnoted.runId, ?_, hnoted.currentRoundId,
      hnoted.nextRoundId, hnoted.nextBlockId⟩
    dsimp only
    rw [hnoted.position]

theorem Dims.submissionEvent (cfg : Settings κ) (key : String) (row : EventRow) (h : Dims s t) :
    Dims (submissionEvent cfg key row s) (SQLiteStore.submissionEvent cfg key row t) := by
  have hprune : ∀ {s t : Store κ}, Dims s t → Dims (pruneBlocks cfg s) (pruneBlocks cfg t) := by
    intro s t h
    refine ⟨h.rounds, ?_, h.runId, h.position, h.currentRoundId, h.nextRoundId, h.nextBlockId⟩
    unfold pruneBlocks
    dsimp only
    rw [h.blocks]
  unfold SQLiteStore.submissionEvent
  split
  · apply hprune
    unfold insertBlock
    rw [h.blocks, h.currentRoundId, h.nextBlockId]
    dsimp only
    split
    · exact h
    · have happended : ∀ blocks : List (Block κ), Dims
          { s with
            blocks
            nextBlockId := s.nextBlockId + 1 }
          { t with
            blocks
            currentRoundId := s.currentRoundId
            nextBlockId := s.nextBlockId + 1 } := fun _ =>
        ⟨h.rounds, rfl, h.runId, h.position, rfl, h.nextRoundId, rfl⟩
      split
      · exact (happended _).updateRound (dims_of_eq (f := fun r => { r with
          closingBlockId := some s.nextBlockId }) fun _ => rfl) _
      · exact happended _
  · exact h

theorem Dims.creditRound (key : String) (row : EventRow) (roundId : ℕ) (h : Dims s t) :
    Dims (creditRound key row roundId s) (SQLiteStore.creditRound key row roundId t) :=
  have hcredited := h.updateRound (dims_of_eq (f := fun r => { r with
    creditedHashes := r.creditedHashes + row.minerTargetDiff
    observedDiffSum := r.observedDiffSum + row.shareDiff
    acceptedShares := r.acceptedShares + 1 }) fun _ => rfl) roundId
  ⟨hcredited.rounds, h.blocks, h.runId, h.position, h.currentRoundId, h.nextRoundId, h.nextBlockId⟩

theorem Dims.closeRound (roundId blockId : ℕ) (h : Dims s t) :
    Dims (closeRound roundId blockId s) (SQLiteStore.closeRound roundId blockId t) := by
  have hclosed := h.updateRound (dims_of_eq (f := fun r => { r with
    active := false
    closingBlockId := some blockId }) fun _ => rfl) roundId
  have hmarked : Dims
      { (s.updateRound roundId fun r => { r with
          active := false
          closingBlockId := some blockId }).updateBlock blockId (fun b => { b with
            roundClosed := true }) with
        closings := s.closings ++ [Closing.mk roundId blockId] }
      { (t.updateRound roundId fun r => { r with
          active := false
          closingBlockId := some blockId }).updateBlock blockId (fun b => { b with
            roundClosed := true }) with
        closings := t.closings ++ [Closing.mk roundId blockId] } := by
    refine ⟨hclosed.rounds, ?_, h.runId, h.position, h.currentRoundId, h.nextRoundId, h.nextBlockId⟩
    unfold Store.updateBlock Store.updateRound
    dsimp only
    rw [h.blocks]
  exact hmarked.insertRound true

theorem Dims.handleIncomplete (h : Dims s t) :
    Dims (handleIncomplete s) (SQLiteStore.handleIncomplete t) := by
  unfold SQLiteStore.handleIncomplete
  rw [h.currentRoundId]
  exact (h.markIncomplete _).recoverClosingRound none

variable [DecidableEq κ] {cfg : Settings κ}

theorem Dims.acceptedShare (key : String) (row : EventRow) (h : Dims s t) :
    Dims (acceptedShare cfg key row s) (SQLiteStore.acceptedShare cfg key row t) := by
  unfold SQLiteStore.acceptedShare
  split
  · rw [h.currentRoundId]
    split
    · exact h.markIncomplete _
    · dsimp only
      have hmarked : Dims
          (if row.networkTargetDiff = 0 then s.markIncomplete s.currentRoundId else s)
          (if row.networkTargetDiff = 0 then t.markIncomplete s.currentRoundId else t) := by
        split
        · exact h.markIncomplete _
        · exact h
      generalize (if row.networkTargetDiff = 0 then s.markIncomplete s.currentRoundId else s) = s'
        at hmarked ⊢
      generalize (if row.networkTargetDiff = 0 then t.markIncomplete s.currentRoundId else t) = t'
        at hmarked ⊢
      have hblock : correlatedBlock cfg row t' = correlatedBlock cfg row s' := by
        unfold correlatedBlock
        rw [hmarked.blocks]
      rw [hblock, hmarked.currentRoundId]
      generalize ((correlatedBlock cfg row s').map Block.roundId).getD s'.currentRoundId = roundId
      rw [isNone_findRound_dims hmarked]
      have hcredited := hmarked.creditRound key row roundId
      split
      · exact hmarked
      · split
        · split
          · exact hcredited
          · exact hcredited.closeRound _ _
        · exact hcredited
  · exact h

theorem Dims.handleEvent (row : EventRow) (session : ℕ) (h : Dims s t) :
    Dims (handleEvent cfg row session s) (SQLiteStore.handleEvent cfg row session t) := by
  have hobserved := h.observePosition row session
  unfold SQLiteStore.handleEvent
  rw [h.streamKey]
  generalize SQLiteStore.observePosition row session s = x at hobserved
  generalize SQLiteStore.observePosition row session t = y at hobserved
  cases hobserved with
  | none => exact h
  | some hobserved => exact (hobserved.submissionEvent cfg _ row).acceptedShare _ row

end Dims

section Marks

variable {s t u : Store κ} {gap gap' : Prop}

/-- Rounds that are complete afterwards were complete before; after a gap they are closed ones. -/
structure Marks (gap : Prop) (s t : Store κ) : Prop where
  rounds : ∀ r' ∈ t.rounds, r'.coverageComplete = true → ∃ r ∈ s.rounds, r.id = r'.id ∧
    r.active = r'.active ∧ r.coverageComplete = true ∧ (gap → r.active = false)
  next : s.nextRoundId ≤ t.nextRoundId
  closings : s.closings <+: t.closings

theorem Marks.refl (s : Store κ) : Marks False s s where
  rounds := fun r hr hcomplete => ⟨r, hr, rfl, rfl, hcomplete, False.elim⟩
  next := Nat.le_refl _
  closings := List.prefix_refl _

theorem Marks.trans (h : Marks gap s t) (h' : Marks gap' t u) : Marks (gap ∨ gap') s u where
  rounds := by
    intro r'' hr'' hcomplete
    obtain ⟨r', hr', hid', hactive', hcomplete', hgap'⟩ := h'.rounds r'' hr'' hcomplete
    obtain ⟨r, hr, hid, hactive, hcomplete, hgap⟩ := h.rounds r' hr' hcomplete'
    refine ⟨r, hr, hid.trans hid', hactive.trans hactive', hcomplete, ?_⟩
    rintro (hg | hg)
    · exact hgap hg
    · exact hactive.trans (hgap' hg)
  next := Nat.le_trans h.next h'.next
  closings := h.closings.trans h'.closings

theorem Marks.imp (h : Marks gap s t) (himp : gap' → gap) : Marks gap' s t where
  rounds := by
    intro r' hr' hcomplete
    obtain ⟨r, hr, hid, hactive, hcomplete, hgap⟩ := h.rounds r' hr' hcomplete
    exact ⟨r, hr, hid, hactive, hcomplete, fun hg => hgap (himp hg)⟩
  next := h.next
  closings := h.closings

/-- Changes to a round that leave open what it is, and do not make it complete. -/
theorem marks_updateRound {f : Round → Round} (hf : ∀ r, (f r).id = r.id ∧ (f r).active = r.active ∧
    ((f r).coverageComplete = true → r.coverageComplete = true)) (i : ℕ) (s : Store κ) :
    Marks False s (s.updateRound i f) where
  rounds := by
    intro r' hr' hcomplete
    obtain ⟨r, hr, rfl⟩ := List.mem_map.mp hr'
    obtain ⟨hid, hactive, hsame⟩ := hf r
    by_cases hi : r.id = i
    · rw [if_pos hi] at hcomplete ⊢
      exact ⟨r, hr, hid.symm, hactive.symm, hsame hcomplete, False.elim⟩
    · rw [if_neg hi] at hcomplete ⊢
      exact ⟨r, hr, rfl, rfl, hcomplete, False.elim⟩
  next := Nat.le_refl _
  closings := List.prefix_refl _

theorem Marks.congr {t' : Store κ} (h : Marks gap s t) (hrounds : t'.rounds = t.rounds)
    (hnext : t'.nextRoundId = t.nextRoundId) (hclosings : t'.closings = t.closings) :
    Marks gap s t' where
  rounds := by
    rw [hrounds]
    exact h.rounds
  next := by
    rw [hnext]
    exact h.next
  closings := by
    rw [hclosings]
    exact h.closings

theorem marks_markIncomplete (i : ℕ) (s : Store κ) : Marks False s (s.markIncomplete i) :=
  (marks_updateRound (f := fun r => { r with coverageComplete := false })
    (fun _ => ⟨rfl, rfl, fun h => absurd h Bool.false_ne_true⟩) i s).congr rfl rfl rfl

/-- Every open round is the current one, so that marking it leaves none that is complete. -/
theorem marks_current (h : Orderly s) : Marks True s (s.markIncomplete s.currentRoundId) where
  rounds := by
    intro r' hr' hcomplete
    obtain ⟨closed, last, hcurrent, hclosed⟩ := h.current
    obtain ⟨r, hr, rfl⟩ := List.mem_map.mp hr'
    split at hcomplete
    · cases hcomplete
    · next hother =>
      rw [if_neg hother]
      refine ⟨r, hr, rfl, rfl, hcomplete, fun _ => ?_⟩
      by_contra hactive
      have hactive : r.outline.active = true := by simpa [Round.outline] using hactive
      have heq := eq_current_of_active hcurrent hclosed (List.mem_map_of_mem hr) hactive
      exact hother (congrArg Outline.id heq)
  next := Nat.le_refl _
  closings := List.prefix_refl _

theorem marks_recoverClosingRound (incoming : Option EventRow) (s : Store κ) :
    Marks False s (recoverClosingRound incoming s) := by
  unfold recoverClosingRound
  split
  · exact Marks.refl s
  · split
    · exact marks_markIncomplete _ s
    · split
      · exact Marks.refl s
      · next round _ _ block _ _ =>
        refine ⟨?_, Nat.le_succ _, List.prefix_append _ _⟩
        intro r' hr' hcomplete
        rcases List.mem_append.mp hr' with hr' | hr'
        · obtain ⟨r, hr, rfl⟩ := List.mem_map.mp hr'
          split at hcomplete
          · cases hcomplete
          · next hother =>
            rw [if_neg hother]
            exact ⟨r, hr, rfl, rfl, hcomplete, False.elim⟩
        · rw [List.mem_singleton.mp hr'] at hcomplete
          cases hcomplete

theorem marks_handleIncomplete (h : Orderly s) : Marks True s (handleIncomplete s) :=
  ((marks_current h).trans (marks_recoverClosingRound none _)).imp Or.inl

/-- A row that does not continue its stream, or that has none. -/
def Gap (row : EventRow) (session : ℕ) (s : Store κ) : Prop :=
  row.streamId = "" ∨ sequenceGap row (s.position (s.streamKey row session)) = true

theorem marks_observePosition {row : EventRow} {session : ℕ} {observed : Store κ} (h : Orderly s)
    (hobserve : observePosition row session s = some observed) :
    Marks (Gap row session s) s observed := by
  unfold observePosition at hobserve
  dsimp only at hobserve
  split at hobserve
  · cases hobserve
  · cases hobserve
    refine Marks.congr
      (t := noteGap row (sequenceGap row (s.position (s.streamKey row session))) s)
      ?_ rfl rfl rfl
    unfold noteGap
    split
    · exact ((marks_current h).trans (marks_recoverClosingRound (some row) _)).imp
        fun _ => Or.inl trivial
    · next hgap =>
      refine (Marks.refl s).imp fun hg => hgap ?_
      rw [Bool.or_eq_true, decide_eq_true_eq]
      exact hg

theorem marks_submissionEvent (cfg : Settings κ) (key : String) (row : EventRow) (s : Store κ) :
    Marks False s (submissionEvent cfg key row s) := by
  unfold submissionEvent
  split
  · refine Marks.congr (t := insertBlock cfg key row s) ?_ rfl rfl rfl
    unfold insertBlock
    split
    · exact Marks.refl s
    · dsimp only
      split
      · exact (marks_updateRound (f := fun r => { r with closingBlockId := some s.nextBlockId })
          (fun _ => ⟨rfl, rfl, fun h => h⟩) _ s).congr rfl rfl rfl
      · exact (Marks.refl s).congr rfl rfl rfl
  · exact Marks.refl s

theorem marks_creditRound (key : String) (row : EventRow) (roundId : ℕ) (s : Store κ) :
    Marks False s (creditRound key row roundId s) :=
  (marks_updateRound (f := fun r => { r with
    creditedHashes := r.creditedHashes + row.minerTargetDiff
    observedDiffSum := r.observedDiffSum + row.shareDiff
    acceptedShares := r.acceptedShares + 1 }) (fun _ => ⟨rfl, rfl, fun h => h⟩) roundId s).congr
      rfl rfl rfl

theorem marks_resumeRound (h : Orderly s) : Marks True s (resumeRound false s) := by
  unfold resumeRound
  split
  · next hnone =>
    obtain ⟨r, hr, -⟩ := (oneOpen_of_orderly h).one
    have hmem : r ∈ s.rounds.filter Round.active := by
      rw [hr]
      exact List.mem_singleton_self _
    obtain ⟨hmem, hactive⟩ := List.mem_filter.mp hmem
    exact absurd hactive (List.find?_eq_none.mp hnone r (List.mem_reverse.mpr hmem))
  · next current hfound =>
    obtain ⟨closed, last, hcurrent, hclosed⟩ := h.current
    have hmem := List.mem_reverse.mp (List.mem_of_find?_eq_some hfound)
    have hactive : current.active = true := List.find?_some hfound
    have heq := eq_current_of_active hcurrent hclosed (List.mem_map_of_mem hmem) hactive
    have hid : current.id = s.currentRoundId := congrArg Outline.id heq
    dsimp only
    rw [hid]
    exact (marks_current h).congr rfl rfl rfl

theorem marks_initializeStore (runId : String) (h : Orderly s) (htracking : s.tracking = true) :
    Marks True s (initializeStore runId s) := by
  have hstarted : Orderly { s with
      runId
      tracking := true
      eventCoverageComplete := false } := h.congr rfl rfl rfl rfl rfl rfl
  have hresumed : Marks True s (resumeRound false { s with
      runId
      tracking := true
      eventCoverageComplete := false }) :=
    have hmarks := marks_resumeRound hstarted
    ⟨hmarks.rounds, hmarks.next, hmarks.closings⟩
  unfold initializeStore
  rw [htracking]
  exact (hresumed.trans (marks_recoverClosingRound none _)).imp Or.inl

end Marks

section Evolves

variable {s t u : Store κ} {gap : Prop}

/-- A complete round was one before, or was closed just now, or opened just now. -/
structure Evolves (gap : Prop) (s t : Store κ) : Prop where
  rounds : ∀ r' ∈ t.rounds, r'.coverageComplete = true →
    (∃ r ∈ s.rounds, r.id = r'.id ∧ r.coverageComplete = true ∧ (gap → r.active = false) ∧
      (r.active = r'.active ∨ r.active = true ∧ r'.active = false ∧
        r'.id ∈ (t.closings.drop s.closings.length).map Closing.roundId)) ∨
    r'.active = true ∧ s.nextRoundId ≤ r'.id ∧ r'.id < t.nextRoundId
  next : s.nextRoundId ≤ t.nextRoundId
  closings : s.closings <+: t.closings

theorem drop_closings (hst : s.closings <+: t.closings) (htu : t.closings <+: u.closings) {i : ℕ}
    (hi : i ∈ (u.closings.drop t.closings.length).map Closing.roundId) :
    i ∈ (u.closings.drop s.closings.length).map Closing.roundId := by
  obtain ⟨first, hfirst⟩ := hst
  obtain ⟨rest, hrest⟩ := htu
  rw [← hrest, List.drop_left] at hi
  rw [← hrest, ← hfirst, List.append_assoc, List.drop_left, List.map_append]
  exact List.mem_append_right _ hi

theorem Marks.evolves (h : Marks gap s t) (h' : Evolves False t u) : Evolves gap s u where
  rounds := by
    intro r'' hr'' hcomplete
    rcases h'.rounds r'' hr'' hcomplete
        with ⟨r', hr', hid', hcomplete', -, hcase⟩ | ⟨hactive, hnew, hlt⟩
    · obtain ⟨r, hr, hid, hactive, hcomplete, hgap⟩ := h.rounds r' hr' hcomplete'
      refine Or.inl ⟨r, hr, hid.trans hid', hcomplete, hgap, ?_⟩
      rw [hactive]
      rcases hcase with hsame | ⟨hopen, hclosed, hmem⟩
      · exact Or.inl hsame
      · exact Or.inr ⟨hopen, hclosed, drop_closings h.closings h'.closings hmem⟩
    · exact Or.inr ⟨hactive, Nat.le_trans h.next hnew, hlt⟩
  next := Nat.le_trans h.next h'.next
  closings := h.closings.trans h'.closings

theorem evolves_of_marks (h : Marks gap s t) : Evolves gap s t where
  rounds := by
    intro r' hr' hcomplete
    obtain ⟨r, hr, hid, hactive, hcomplete, hgap⟩ := h.rounds r' hr' hcomplete
    exact Or.inl ⟨r, hr, hid, hcomplete, hgap, Or.inl hactive⟩
  next := h.next
  closings := h.closings

theorem evolves_closeRound {roundId blockId : ℕ}
    (hactive : ∀ r ∈ s.rounds, r.id = roundId → r.active = true) :
    Evolves False s (closeRound roundId blockId s) where
  rounds := by
    intro r' hr' hcomplete
    rcases List.mem_append.mp hr' with hr' | hr'
    · obtain ⟨r, hr, rfl⟩ := List.mem_map.mp hr'
      by_cases hid : r.id = roundId
      · rw [if_pos hid] at hcomplete ⊢
        refine Or.inl ⟨r, hr, rfl, hcomplete, False.elim, Or.inr ⟨hactive r hr hid, rfl, ?_⟩⟩
        have hdrop : (closeRound roundId blockId s).closings.drop s.closings.length =
            [Closing.mk roundId blockId] := List.drop_left
        rw [hdrop]
        exact List.mem_singleton.mpr hid
      · rw [if_neg hid] at hcomplete ⊢
        exact Or.inl ⟨r, hr, rfl, hcomplete, False.elim, Or.inl rfl⟩
    · rw [List.mem_singleton.mp hr']
      exact Or.inr ⟨rfl, Nat.le_refl _, Nat.lt_succ_self _⟩
  next := Nat.le_succ _
  closings := List.prefix_append _ _

variable [DecidableEq κ] {cfg : Settings κ}

theorem evolves_acceptedShare (key : String) (row : EventRow) (h : Orderly s)
    (hfresh : ∀ block, isAcceptedShare row = true → row.minerTargetDiff ≠ 0 →
      correlatedBlock cfg row s = some block → block.roundClosed = false →
      ∀ o ∈ outlines s, o.id = block.roundId → o.active = true) :
    Evolves False s (acceptedShare cfg key row s) := by
  by_cases haccepted : isAcceptedShare row = true
  · by_cases htarget : row.minerTargetDiff = 0
    · unfold acceptedShare
      rw [if_pos haccepted, if_pos htarget]
      exact evolves_of_marks (marks_markIncomplete _ s)
    · obtain ⟨marked, hmarked, heq⟩ :=
        acceptedShare_eq cfg s key haccepted htarget
      have hmarks : Marks False s marked := by
        rcases hmarked with rfl | rfl
        · exact Marks.refl _
        · exact marks_markIncomplete _ s
      obtain ⟨-, houtlines, -, -, -⟩ := orderly_of_marked h hmarked
      rw [heq]
      dsimp only
      split
      · exact evolves_of_marks hmarks
      · have hcredited : ∀ roundId, Marks False s (creditRound key row roundId marked) := by
          intro roundId
          have hboth := hmarks.trans (marks_creditRound key row roundId marked)
          exact hboth.imp False.elim
        split
        · next block hblock =>
          rw [hblock, Option.map_some, Option.getD_some]
          split
          · exact evolves_of_marks (hcredited _)
          · next hopen =>
            have hopen : block.roundClosed = false := by simpa using hopen
            refine (hcredited _).evolves (evolves_closeRound fun r hr hid => ?_)
            have hsame := outlines_creditRound key row block.roundId marked
            have hmem : r.outline ∈ outlines (creditRound key row block.roundId marked) :=
              List.mem_map_of_mem hr
            rw [hsame, houtlines] at hmem
            exact hfresh block haccepted htarget hblock hopen r.outline hmem hid
        · exact evolves_of_marks (hcredited _)
  · unfold acceptedShare
    rw [if_neg haccepted]
    exact evolves_of_marks (Marks.refl s)

theorem evolves_handleEvent {row : EventRow} {session : ℕ} {observed : Store κ} (h : Orderly s)
    (hfresh : ¬ Stale cfg s (.event row session))
    (hobserve : observePosition row session s = some observed) :
    Evolves (Gap row session s) s (handleEvent cfg row session s) := by
  have hobserved := orderly_observePosition h hobserve
  unfold handleEvent
  rw [hobserve]
  dsimp only
  apply (marks_observePosition h hobserve).evolves
  refine (marks_submissionEvent cfg _ row observed).evolves
    (evolves_acceptedShare _ row (orderly_submissionEvent cfg _ row hobserved) ?_)
  intro block haccepted htarget hblock hopen
  rw [submissionEvent_of_isAcceptedShare haccepted] at hblock ⊢
  exact active_of_not_stale hobserved hfresh hobserve haccepted htarget hblock hopen

end Evolves

section Frame

variable {s t u : Store κ}

/-- The positions of the streams, and what the process is known by, stay. -/
structure Frame (s t : Store κ) : Prop where
  position : t.position = s.position
  tracking : t.tracking = s.tracking
  runId : t.runId = s.runId

theorem Frame.refl (s : Store κ) : Frame s s := ⟨rfl, rfl, rfl⟩

theorem Frame.trans (h : Frame s t) (h' : Frame t u) : Frame s u :=
  ⟨h'.position.trans h.position, h'.tracking.trans h.tracking, h'.runId.trans h.runId⟩

theorem frame_recoverClosingRound (incoming : Option EventRow) (s : Store κ) :
    Frame s (recoverClosingRound incoming s) := by
  unfold recoverClosingRound
  split
  · exact Frame.refl s
  · split
    · exact ⟨rfl, rfl, rfl⟩
    · split
      · exact Frame.refl s
      · exact ⟨rfl, rfl, rfl⟩

theorem frame_handleIncomplete (s : Store κ) : Frame s (handleIncomplete s) :=
  have hrecover := frame_recoverClosingRound none (s.markIncomplete s.currentRoundId)
  ⟨hrecover.position, hrecover.tracking, hrecover.runId⟩

theorem frame_resumeRound (boundary : Bool) (s : Store κ) : Frame s (resumeRound boundary s) := by
  unfold resumeRound
  split
  · exact ⟨rfl, rfl, rfl⟩
  · dsimp only
    split
    · exact ⟨rfl, rfl, rfl⟩
    · exact ⟨rfl, rfl, rfl⟩

theorem frame_initializeStore (runId : String) (s : Store κ) :
    (initializeStore runId s).position = s.position ∧
      (initializeStore runId s).tracking = true := by
  have hresumed := frame_resumeRound (!s.tracking) { s with
    runId
    tracking := true
    eventCoverageComplete := !s.tracking }
  unfold initializeStore
  dsimp only
  split
  · exact ⟨hresumed.position, hresumed.tracking⟩
  · have hrecovered := hresumed.trans (frame_recoverClosingRound none _)
    exact ⟨hrecovered.position, hrecovered.tracking⟩

theorem frame_submissionEvent (cfg : Settings κ) (key : String) (row : EventRow) (s : Store κ) :
    Frame s (submissionEvent cfg key row s) := by
  have hinsert : Frame s (insertBlock cfg key row s) := by
    unfold insertBlock
    split
    · exact Frame.refl s
    · dsimp only
      split
      · exact ⟨rfl, rfl, rfl⟩
      · exact ⟨rfl, rfl, rfl⟩
  unfold submissionEvent
  split
  · exact ⟨hinsert.position, hinsert.tracking, hinsert.runId⟩
  · exact Frame.refl s

theorem observePosition_frame {row : EventRow} {session : ℕ} {observed : Store κ}
    (hobserve : observePosition row session s = some observed) :
    observed.position =
        Function.update s.position (s.streamKey row session) (some row.eventSeq) ∧
      observed.tracking = s.tracking ∧ observed.runId = s.runId := by
  unfold observePosition at hobserve
  dsimp only at hobserve
  split at hobserve
  · cases hobserve
  · cases hobserve
    have hnoted : Frame s
        (noteGap row (sequenceGap row (s.position (s.streamKey row session))) s) := by
      unfold noteGap
      split
      · have hrecover := frame_recoverClosingRound (some row) (s.markIncomplete s.currentRoundId)
        exact ⟨hrecover.position, hrecover.tracking, hrecover.runId⟩
      · exact Frame.refl s
    refine ⟨?_, hnoted.tracking, hnoted.runId⟩
    dsimp only
    rw [hnoted.position]

variable [DecidableEq κ] {cfg : Settings κ}

theorem frame_acceptedShare (cfg : Settings κ) (key : String) (row : EventRow) (s : Store κ) :
    Frame s (acceptedShare cfg key row s) := by
  unfold acceptedShare
  split
  · split
    · exact ⟨rfl, rfl, rfl⟩
    · dsimp only
      generalize hbranch : (if row.networkTargetDiff = 0 then s.markIncomplete s.currentRoundId
        else s) = marked
      have hmarked : Frame s marked := by
        rw [← hbranch]
        split
        · exact ⟨rfl, rfl, rfl⟩
        · exact Frame.refl s
      apply hmarked.trans
      split
      · exact Frame.refl marked
      · split
        · split
          · exact ⟨rfl, rfl, rfl⟩
          · exact ⟨rfl, rfl, rfl⟩
        · exact ⟨rfl, rfl, rfl⟩
  · exact Frame.refl s

theorem frame_handleEvent (cfg : Settings κ) {row : EventRow} {session : ℕ} {observed : Store κ}
    (hobserve : observePosition row session s = some observed) :
    (handleEvent cfg row session s).position =
        Function.update s.position (s.streamKey row session) (some row.eventSeq) ∧
      (handleEvent cfg row session s).tracking = s.tracking ∧
      (handleEvent cfg row session s).runId = s.runId := by
  obtain ⟨hposition, htracking, hrunId⟩ := observePosition_frame hobserve
  have hframe := (frame_submissionEvent cfg (s.streamKey row session) row observed).trans
    (frame_acceptedShare cfg (s.streamKey row session) row
      (submissionEvent cfg (s.streamKey row session) row observed))
  unfold handleEvent
  rw [hobserve]
  exact ⟨hframe.position.trans hposition, hframe.tracking.trans htracking,
    hframe.runId.trans hrunId⟩

end Frame

section CurrentComplete

/-- Whether the current round still counts as complete. -/
def currentComplete (s : Store κ) : Bool :=
  s.rounds.any fun r => r.id = s.currentRoundId && r.coverageComplete

variable {s t : Store κ}

theorem currentComplete_of_mem {r : Round} (hr : r ∈ s.rounds) (hid : r.id = s.currentRoundId)
    (hcomplete : r.coverageComplete = true) : currentComplete s = true := by
  refine List.any_eq_true.mpr ⟨r, hr, ?_⟩
  rw [hcomplete, Bool.and_true, decide_eq_true_eq]
  exact hid

theorem currentComplete_of_active (h : Orderly s) {r : Round} (hr : r ∈ s.rounds)
    (hactive : r.active = true) (hcomplete : r.coverageComplete = true) :
    currentComplete s = true := by
  obtain ⟨closed, last, hcurrent, hclosed⟩ := h.current
  have heq := eq_current_of_active hcurrent hclosed (List.mem_map_of_mem hr) hactive
  exact currentComplete_of_mem hr (congrArg Outline.id heq) hcomplete

theorem not_currentComplete_of_active (h : Orderly s)
    (hincomplete : ∀ r ∈ s.rounds, r.active = true → r.coverageComplete = false) :
    currentComplete s = false := by
  refine List.any_eq_false.mpr fun r hr => ?_
  rw [Bool.and_eq_true, decide_eq_true_eq]
  rintro ⟨hid, hcomplete⟩
  obtain ⟨closed, last, hcurrent, -⟩ := h.current
  have hlast : (⟨s.currentRoundId, true, last⟩ : Outline) ∈ outlines s := by
    rw [hcurrent]
    exact List.mem_append_right _ (List.mem_singleton_self _)
  have hsame := List.inj_on_of_nodup_map h.ids (List.mem_map_of_mem hr) hlast hid
  rw [hincomplete r hr (congrArg Outline.active hsame)] at hcomplete
  cases hcomplete

theorem exists_of_dims {l l' : List Round} (h : List.Forall₂ Round.Dims l l') {r' : Round}
    (hr' : r' ∈ l') : ∃ r ∈ l, r.Dims r' := by
  induction h with
  | nil => exact absurd hr' List.not_mem_nil
  | @cons r x l l' hr _ ih =>
      rcases List.mem_cons.mp hr' with rfl | hr'
      · exact ⟨r, List.mem_cons_self, hr⟩
      · obtain ⟨r, hmem, hr⟩ := ih hr'
        exact ⟨r, List.mem_cons_of_mem _ hmem, hr⟩

theorem currentComplete_dims (h : Dims s t) (ht : currentComplete t = true) :
    currentComplete s = true := by
  obtain ⟨r', hr', hcomplete⟩ := List.any_eq_true.mp ht
  rw [Bool.and_eq_true, decide_eq_true_eq] at hcomplete
  obtain ⟨r, hr, hdims⟩ := exists_of_dims h.rounds hr'
  obtain ⟨hid, -, -, hsame⟩ := hdims.eqs
  refine currentComplete_of_mem hr ?_ (hsame hcomplete.2)
  rw [← hid, hcomplete.1, h.currentRoundId]

theorem not_currentComplete_markIncomplete (s : Store κ) :
    currentComplete (s.markIncomplete s.currentRoundId) = false := by
  refine List.any_eq_false.mpr fun r' hr' => ?_
  obtain ⟨r, -, rfl⟩ := List.mem_map.mp hr'
  change ¬ ((if r.id = s.currentRoundId then { r with coverageComplete := false } else r).id =
    s.currentRoundId && _) = true
  split
  · rw [Bool.and_false]
    exact Bool.false_ne_true
  · next hother =>
    rw [Bool.and_eq_true, decide_eq_true_eq]
    exact fun h => hother h.1

/-- A recovered round gives way to one that is not complete either. -/
theorem not_currentComplete_recoverClosingRound (incoming : Option EventRow)
    (hfresh : ∀ r ∈ s.rounds, r.id < s.nextRoundId) (h : currentComplete s = false) :
    currentComplete (recoverClosingRound incoming s) = false := by
  unfold recoverClosingRound
  split
  · exact h
  · next round _ =>
    split
    · refine Bool.eq_false_iff.mpr fun hcomplete => ?_
      exact Bool.eq_false_iff.mp h (currentComplete_dims (dims_markIncomplete round.id s) hcomplete)
    · split
      · exact h
      · refine List.any_eq_false.mpr fun r' hr' => ?_
        rw [Bool.and_eq_true, decide_eq_true_eq]
        rintro ⟨hid, hcomplete⟩
        rcases List.mem_append.mp hr' with hr' | hr'
        · obtain ⟨r, hr, rfl⟩ := List.mem_map.mp hr'
          have hlt := hfresh r hr
          have hid : r.id = s.nextRoundId := by
            split at hid
            · exact hid
            · exact hid
          omega
        · rw [List.mem_singleton.mp hr'] at hcomplete
          cases hcomplete

theorem not_currentComplete_handleIncomplete (hfresh : ∀ r ∈ s.rounds, r.id < s.nextRoundId) :
    currentComplete (handleIncomplete s) = false := by
  refine not_currentComplete_recoverClosingRound none (fun r hr => ?_)
    (not_currentComplete_markIncomplete s)
  exact fresh_updateRound (f := fun r => { r with coverageComplete := false })
    (fun _ => rfl) hfresh r hr

end CurrentComplete

end SQLiteStore

end XmrigProxy
