import XmrigProxy.RoundStore
import Mathlib.Data.List.Nodup
import Mathlib.Data.List.Induction
import Mathlib.Data.Option.Basic

/-! Exactly one round is open, until the winning share of a second block arrives for a round that is
closed: it closes the round again and opens another one. -/
namespace XmrigProxy

namespace SQLiteStore

variable {κ : Type}

/-- What a round is for the invariants. -/
structure Outline where
  id : ℕ
  active : Bool
  closing : Option ℕ
  deriving DecidableEq

def Round.outline (r : Round) : Outline := ⟨r.id, r.active, r.closingBlockId⟩

def outlines (s : Store κ) : List Outline := s.rounds.map Round.outline

/-- One round is active and it is the current one, every closed round was closed by an accepted
block of its own, and no round and no block closed twice. -/
structure OneOpen (s : Store κ) : Prop where
  one : ∃ r, s.rounds.filter Round.active = [r] ∧ r.id = s.currentRoundId
  closed : ∀ r ∈ s.rounds, r.active = false → ∃ b ∈ s.blocks, b.accepted = true ∧
    r.closingBlockId = some b.id ∧ b.roundId = r.id ∧ b.roundClosed = true
  roundsOnce : (s.closings.map Closing.roundId).Nodup
  blocksOnce : (s.closings.map Closing.blockId).Nodup

/-- The invariant: the current round is the last one, and a block that closed a round is known by
it. -/
structure Orderly (s : Store κ) : Prop where
  current : ∃ closed last, outlines s = closed ++ [⟨s.currentRoundId, true, last⟩] ∧
    ∀ o ∈ closed, o.active = false
  ids : ((outlines s).map Outline.id).Nodup
  fresh : ∀ o ∈ outlines s, o.id < s.nextRoundId
  blockIds : (s.blocks.map Block.id).Nodup
  freshBlocks : ∀ b ∈ s.blocks, b.id < s.nextBlockId
  closing : ∀ o ∈ outlines s, ∀ i, o.closing = some i → ∃ b ∈ s.blocks, b.id = i ∧
    b.accepted = true ∧ b.roundId = o.id ∧ b.roundClosed = !o.active
  closed : ∀ o ∈ outlines s, o.active = false → o.closing ≠ none
  marked : ∀ b ∈ s.blocks, b.roundClosed = true → ∃ o ∈ outlines s, o.active = false ∧
    o.closing = some b.id
  located : ∀ b ∈ s.blocks, ∃ o ∈ outlines s, o.id = b.roundId
  closings : s.closings.map (fun c => (c.roundId, some c.blockId)) =
    ((outlines s).filter fun o => !o.active).map fun o => (o.id, o.closing)

section Views

variable {s : Store κ}

theorem Orderly.congr {s' : Store κ} (h : Orderly s) (houtlines : outlines s' = outlines s)
    (hblocks : s'.blocks = s.blocks) (hcurrent : s'.currentRoundId = s.currentRoundId)
    (hrounds : s'.nextRoundId = s.nextRoundId) (hnext : s'.nextBlockId = s.nextBlockId)
    (hclosings : s'.closings = s.closings) : Orderly s' := by
  constructor
  · rw [houtlines, hcurrent]
    exact h.current
  · rw [houtlines]
    exact h.ids
  · rw [houtlines, hrounds]
    exact h.fresh
  · rw [hblocks]
    exact h.blockIds
  · rw [hblocks, hnext]
    exact h.freshBlocks
  · rw [houtlines, hblocks]
    exact h.closing
  · rw [houtlines]
    exact h.closed
  · rw [houtlines, hblocks]
    exact h.marked
  · rw [houtlines, hblocks]
    exact h.located
  · rw [hclosings, houtlines]
    exact h.closings

theorem outlines_updateRound {f : Round → Round} (hf : ∀ r, (f r).outline = r.outline) (id : ℕ)
    (s : Store κ) : outlines (s.updateRound id f) = outlines s := by
  unfold outlines Store.updateRound
  rw [List.map_map]
  refine List.map_congr_left fun r _ => ?_
  dsimp only [Function.comp]
  split
  · exact hf r
  · rfl

theorem orderly_updateRound {f : Round → Round} (hf : ∀ r, (f r).outline = r.outline) (id : ℕ)
    (h : Orderly s) : Orderly (s.updateRound id f) :=
  h.congr (outlines_updateRound hf id s) rfl rfl rfl rfl rfl

theorem outlines_markIncomplete (id : ℕ) (s : Store κ) :
    outlines (s.markIncomplete id) = outlines s :=
  outlines_updateRound (f := fun r => { r with coverageComplete := false }) (fun _ => rfl) id s

theorem orderly_markIncomplete (id : ℕ) (h : Orderly s) : Orderly (s.markIncomplete id) :=
  have hmarked : Orderly (s.markRound id) :=
    orderly_updateRound (f := fun r => { r with coverageComplete := false }) (fun _ => rfl) id h
  hmarked.congr rfl rfl rfl rfl rfl rfl

/-- A change to the current round changes the last outline. -/
theorem outlines_updateCurrent {f : Round → Round} {o : Outline} {closed : List Outline}
    {last : Option ℕ} (hids : ((outlines s).map Outline.id).Nodup)
    (hcurrent : outlines s = closed ++ [⟨s.currentRoundId, true, last⟩])
    (hf : ∀ r : Round, r.outline = ⟨s.currentRoundId, true, last⟩ → (f r).outline = o) :
    outlines (s.updateRound s.currentRoundId f) = closed ++ [o] := by
  have hsplit : ∃ before r, s.rounds = before ++ [r] ∧ before.map Round.outline = closed ∧
      r.outline = ⟨s.currentRoundId, true, last⟩ := by
    obtain ⟨before, rest, hrounds, hbefore, hrest⟩ := List.map_eq_append_iff.mp hcurrent
    obtain ⟨r, tail, rfl, hr, htail⟩ := List.map_eq_cons_iff.mp hrest
    obtain rfl := List.map_eq_nil_iff.mp htail
    exact ⟨before, r, hrounds, hbefore, hr⟩
  obtain ⟨before, r, hrounds, hbefore, hr⟩ := hsplit
  have hid : r.id = s.currentRoundId := congrArg Outline.id hr
  have hother : ∀ r' ∈ before, r'.id ≠ s.currentRoundId := by
    intro r' hr' heq
    rw [hcurrent, List.map_append] at hids
    obtain ⟨-, -, hdisjoint⟩ := List.nodup_append.mp hids
    refine hdisjoint r'.id ?_ s.currentRoundId (List.mem_singleton_self _) heq
    rw [← hbefore, List.map_map]
    exact List.mem_map_of_mem (f := fun r : Round => r.id) hr'
  unfold outlines Store.updateRound
  dsimp only
  rw [hrounds, List.map_append, List.map_append, List.map_singleton, List.map_singleton, if_pos hid,
    hf r hr, ← hbefore]
  congr 1
  rw [List.map_map]
  refine List.map_congr_left fun r' hr' => ?_
  dsimp only [Function.comp]
  rw [if_neg (hother r' hr')]

theorem outline_eq_of_closing (h : Orderly s) {o o' : Outline} (ho : o ∈ outlines s)
    (ho' : o' ∈ outlines s) {i : ℕ} (hi : o.closing = some i) (hi' : o'.closing = some i) :
    o = o' := by
  obtain ⟨b, hb, hid, -, hround, -⟩ := h.closing o ho i hi
  obtain ⟨b', hb', hid', -, hround', -⟩ := h.closing o' ho' i hi'
  have hblock : b = b' := List.inj_on_of_nodup_map h.blockIds hb hb' (hid.trans hid'.symm)
  apply List.inj_on_of_nodup_map h.ids ho ho'
  rw [← hround, ← hround', hblock]

theorem oneOpen_of_orderly (h : Orderly s) : OneOpen s := by
  obtain ⟨closed, last, hcurrent, hclosed⟩ := h.current
  have hmem : ∀ r ∈ s.rounds, r.outline ∈ outlines s := fun r hr => List.mem_map_of_mem hr
  have hkeys : s.closings.map Closing.roundId =
      ((outlines s).filter fun o => !o.active).map Outline.id := by
    have hfst := congrArg (List.map Prod.fst) h.closings
    rw [List.map_map, List.map_map] at hfst
    exact hfst
  constructor
  · obtain ⟨before, rest, hrounds, hbefore, hrest⟩ := List.map_eq_append_iff.mp hcurrent
    obtain ⟨r, tail, rfl, hr, htail⟩ := List.map_eq_cons_iff.mp hrest
    obtain rfl := List.map_eq_nil_iff.mp htail
    have hnone : before.filter Round.active = [] := by
      refine List.filter_eq_nil_iff.mpr fun r' hr' => ?_
      have hinactive := hclosed r'.outline (hbefore ▸ List.mem_map_of_mem hr')
      have hinactive : r'.active = false := hinactive
      rw [hinactive]
      exact Bool.false_ne_true
    have hactive : r.active = true := congrArg Outline.active hr
    refine ⟨r, ?_, congrArg Outline.id hr⟩
    rw [hrounds, List.filter_append, hnone, List.filter_singleton, hactive]
    rfl
  · intro r hr hinactive
    obtain ⟨i, hi⟩ := Option.ne_none_iff_exists'.mp (h.closed _ (hmem r hr) hinactive)
    obtain ⟨b, hb, rfl, haccepted, hround, hmark⟩ := h.closing _ (hmem r hr) i hi
    have hmark : b.roundClosed = !r.active := hmark
    rw [hinactive] at hmark
    exact ⟨b, hb, haccepted, hi, hround, hmark⟩
  · rw [hkeys]
    exact (h.ids).sublist (List.filter_sublist.map _)
  · have hblocks : (s.closings.map Closing.blockId).map some =
        ((outlines s).filter fun o => !o.active).map Outline.closing := by
      have hsnd := congrArg (List.map Prod.snd) h.closings
      rw [List.map_map, List.map_map] at hsnd
      rw [List.map_map]
      exact hsnd
    apply List.Nodup.of_map some
    rw [hblocks]
    refine List.Nodup.map_on ?_ (List.Nodup.filter _ (List.Nodup.of_map _ h.ids))
    intro o ho o' ho' heq
    obtain ⟨hmem, hinactive⟩ := List.mem_filter.mp ho
    obtain ⟨hmem', -⟩ := List.mem_filter.mp ho'
    have hinactive : o.active = false := by simpa using hinactive
    obtain ⟨i, hi⟩ := Option.ne_none_iff_exists'.mp (h.closed o hmem hinactive)
    exact outline_eq_of_closing h hmem hmem' hi (heq ▸ hi)

end Views

section Closing

variable {s : Store κ}

theorem mem_updateBlock {b : Block κ} {id : ℕ} {f : Block κ → Block κ} :
    b ∈ (s.updateBlock id f).blocks ↔ ∃ b' ∈ s.blocks, (if b'.id = id then f b' else b') = b :=
  List.mem_map

/-- The current round is closed with a block of its own, and the next one is opened. -/
structure Closes (closed : List Outline) (last : Option ℕ) (block : Block κ) (s s' : Store κ) :
    Prop where
  current : outlines s = closed ++ [⟨s.currentRoundId, true, last⟩]
  inactive : ∀ o ∈ closed, o.active = false
  mem : block ∈ s.blocks
  accepted : block.accepted = true
  located : block.roundId = s.currentRoundId
  opened : block.roundClosed = false
  outlines_eq : outlines s' =
    closed ++ [⟨s.currentRoundId, false, some block.id⟩] ++ [⟨s.nextRoundId, true, none⟩]
  blocks_eq : s'.blocks = (s.updateBlock block.id fun b => { b with roundClosed := true }).blocks
  currentRoundId : s'.currentRoundId = s.nextRoundId
  nextRoundId : s'.nextRoundId = s.nextRoundId + 1
  nextBlockId : s'.nextBlockId = s.nextBlockId
  closings_eq : s'.closings = s.closings ++ [⟨s.currentRoundId, block.id⟩]

namespace Closes

variable {s' : Store κ} {closed : List Outline} {last : Option ℕ} {block : Block κ}
  (c : Closes closed last block s s') (h : Orderly s)

include c

theorem outline_cases {o : Outline} (ho : o ∈ outlines s') :
    o ∈ closed ∨ o = ⟨s.currentRoundId, false, some block.id⟩ ∨
      o = ⟨s.nextRoundId, true, none⟩ := by
  rw [c.outlines_eq, List.append_assoc] at ho
  rcases List.mem_append.mp ho with ho | ho
  · exact Or.inl ho
  · exact Or.inr (by simpa using ho)

theorem earlier {o : Outline} (ho : o ∈ closed) : o ∈ outlines s ∧ o ∈ outlines s' := by
  rw [c.current, c.outlines_eq, List.append_assoc]
  exact ⟨List.mem_append_left _ ho, List.mem_append_left _ ho⟩

theorem closedNow : (⟨s.currentRoundId, false, some block.id⟩ : Outline) ∈ outlines s' := by
  rw [c.outlines_eq, List.append_assoc]
  exact List.mem_append_right _ List.mem_cons_self

/-- A round that was there before is there again, the current one as closed. -/
theorem outline_of_old {o : Outline} (ho : o ∈ outlines s) :
    o ∈ outlines s' ∧ o ∈ closed ∨ o = ⟨s.currentRoundId, true, last⟩ := by
  rw [c.current] at ho
  rcases List.mem_append.mp ho with ho | ho
  · exact Or.inl ⟨(c.earlier ho).2, ho⟩
  · exact Or.inr (List.mem_singleton.mp ho)

include h

theorem current_lt : s.currentRoundId < s.nextRoundId := by
  refine h.fresh ⟨s.currentRoundId, true, last⟩ ?_
  rw [c.current]
  exact List.mem_append_right _ (List.mem_singleton_self _)

/-- Of the blocks, only the one that closes the round is marked. -/
theorem block_of_new {b : Block κ} (hb : b ∈ s'.blocks) : ∃ b' ∈ s.blocks, b.id = b'.id ∧
    b.roundId = b'.roundId ∧ b.accepted = b'.accepted ∧ (b' = block ∨ b = b') := by
  rw [c.blocks_eq] at hb
  obtain ⟨b', hb', rfl⟩ := mem_updateBlock.mp hb
  by_cases hid : b'.id = block.id
  · rw [if_pos hid]
    exact ⟨b', hb', rfl, rfl, rfl, Or.inl (List.inj_on_of_nodup_map h.blockIds hb' c.mem hid)⟩
  · rw [if_neg hid]
    exact ⟨b', hb', rfl, rfl, rfl, Or.inr rfl⟩

theorem ids : ((outlines s').map Outline.id).Nodup := by
  have hids := h.ids
  rw [c.current, List.map_append, List.map_singleton] at hids
  rw [c.outlines_eq, List.map_append, List.map_append, List.map_singleton, List.map_singleton]
  refine List.nodup_append.mpr ⟨hids, List.nodup_singleton _, ?_⟩
  intro i hi j hj heq
  have hfresh : i < s.nextRoundId := by
    rcases List.mem_append.mp hi with hi | hi
    · obtain ⟨o, ho, rfl⟩ := List.mem_map.mp hi
      exact h.fresh o (c.earlier ho).1
    · rw [List.mem_singleton.mp hi]
      exact c.current_lt h
  rw [heq, List.mem_singleton.mp hj] at hfresh
  exact Nat.lt_irrefl _ hfresh

theorem fresh {o : Outline} (ho : o ∈ outlines s') : o.id < s'.nextRoundId := by
  rw [c.nextRoundId]
  rcases c.outline_cases ho with ho | rfl | rfl
  · exact Nat.lt_succ_of_lt (h.fresh o (c.earlier ho).1)
  · exact Nat.lt_succ_of_lt (c.current_lt h)
  · exact Nat.lt_succ_self _

omit h in
theorem blockIds_eq : s'.blocks.map Block.id = s.blocks.map Block.id := by
  rw [c.blocks_eq]
  unfold Store.updateBlock
  rw [List.map_map]
  refine List.map_congr_left fun b _ => ?_
  dsimp only [Function.comp]
  split <;> rfl

theorem closing {o : Outline} (ho : o ∈ outlines s') {i : ℕ} (hi : o.closing = some i) :
    ∃ b ∈ s'.blocks, b.id = i ∧ b.accepted = true ∧ b.roundId = o.id ∧
      b.roundClosed = !o.active := by
  rw [c.blocks_eq]
  rcases c.outline_cases ho with ho | rfl | rfl
  · obtain ⟨b, hb, hid, hacc, hround, hmark⟩ := h.closing o (c.earlier ho).1 i hi
    have hne : b.id ≠ block.id := by
      intro heq
      have hsame := List.inj_on_of_nodup_map h.blockIds hb c.mem heq
      rw [hsame, c.opened, c.inactive o ho] at hmark
      cases hmark
    exact ⟨b, mem_updateBlock.mpr ⟨b, hb, if_neg hne⟩, hid, hacc, hround, hmark⟩
  · have hi : block.id = i := by simpa using hi
    exact ⟨{ block with roundClosed := true }, mem_updateBlock.mpr ⟨block, c.mem, if_pos rfl⟩, hi,
      c.accepted, c.located, rfl⟩
  · cases hi

theorem marked {b : Block κ} (hb : b ∈ s'.blocks) (hmark : b.roundClosed = true) :
    ∃ o ∈ outlines s', o.active = false ∧ o.closing = some b.id := by
  obtain ⟨b', hb', hid, -, -, hcase⟩ := c.block_of_new h hb
  rcases hcase with rfl | rfl
  · exact ⟨_, c.closedNow, rfl, by rw [hid]⟩
  · obtain ⟨o, ho, hinactive, hclosing⟩ := h.marked b hb' hmark
    rcases c.outline_of_old ho with ⟨ho, -⟩ | rfl
    · exact ⟨o, ho, hinactive, hclosing⟩
    · cases hinactive

theorem roundOf {b : Block κ} (hb : b ∈ s'.blocks) : ∃ o ∈ outlines s', o.id = b.roundId := by
  obtain ⟨b', hb', -, hround, -⟩ := c.block_of_new h hb
  obtain ⟨o, ho, hid⟩ := h.located b' hb'
  rcases c.outline_of_old ho with ⟨ho, -⟩ | rfl
  · exact ⟨o, ho, hid.trans hround.symm⟩
  · exact ⟨_, c.closedNow, hid.trans hround.symm⟩

theorem closings : s'.closings.map (fun x => (x.roundId, some x.blockId)) =
    ((outlines s').filter fun o => !o.active).map fun o => (o.id, o.closing) := by
  have hsame := h.closings
  rw [c.current, List.filter_append, List.map_append] at hsame
  rw [c.closings_eq, c.outlines_eq, List.map_append, hsame, List.filter_append,
    List.filter_append, List.map_append, List.map_append]
  simp

theorem orderly : Orderly s' where
  current := by
    refine ⟨closed ++ [⟨s.currentRoundId, false, some block.id⟩], none, ?_, ?_⟩
    · rw [c.outlines_eq, c.currentRoundId]
    · intro o ho
      rcases List.mem_append.mp ho with ho | ho
      · exact c.inactive o ho
      · rw [List.mem_singleton.mp ho]
  ids := c.ids h
  fresh := fun _ ho => c.fresh h ho
  blockIds := by
    rw [c.blockIds_eq]
    exact h.blockIds
  freshBlocks := by
    intro b hb
    obtain ⟨b', hb', hid, -⟩ := c.block_of_new h hb
    rw [hid, c.nextBlockId]
    exact h.freshBlocks b' hb'
  closing := fun _ ho _ hi => c.closing h ho hi
  closed := by
    intro o ho hinactive
    rcases c.outline_cases ho with ho | rfl | rfl
    · exact h.closed o (c.earlier ho).1 hinactive
    · exact Option.some_ne_none _
    · cases hinactive
  marked := fun _ hb hmark => c.marked h hb hmark
  located := fun _ hb => c.roundOf h hb
  closings := c.closings h

end Closes

/-- Only the current round is open. -/
theorem eq_current_of_active {closed : List Outline} {last : Option ℕ}
    (hcurrent : outlines s = closed ++ [⟨s.currentRoundId, true, last⟩])
    (hclosed : ∀ o ∈ closed, o.active = false) {o : Outline} (ho : o ∈ outlines s)
    (hactive : o.active = true) : o = ⟨s.currentRoundId, true, last⟩ := by
  rw [hcurrent] at ho
  rcases List.mem_append.mp ho with ho | ho
  · rw [hclosed o ho] at hactive
    cases hactive
  · exact List.mem_singleton.mp ho

theorem orderly_recoverClosingRound (incoming : Option EventRow) (h : Orderly s) :
    Orderly (recoverClosingRound incoming s) := by
  obtain ⟨closed, last, hcurrent, hclosed⟩ := h.current
  unfold recoverClosingRound
  split
  · exact h
  · next round hround =>
    have hmem : round.outline ∈ outlines s := by
      have hreverse := List.mem_of_find?_eq_some hround
      exact List.mem_map_of_mem (List.mem_reverse.mp hreverse)
    have hfound := List.find?_some hround
    rw [Bool.and_eq_true] at hfound
    have heq := eq_current_of_active hcurrent hclosed hmem hfound.1
    have hid : round.id = s.currentRoundId := congrArg Outline.id heq
    have hlast : round.closingBlockId = last := congrArg Outline.closing heq
    split
    · exact orderly_markIncomplete _ h
    · next block hblock =>
      split
      · exact h
      · obtain ⟨i, hi⟩ := Option.isSome_iff_exists.mp hfound.2
        rw [hi, Option.bind_some] at hblock
        obtain ⟨hblockmem, hblockid⟩ := Store.mem_of_findBlock hblock
        obtain ⟨b, hb, hbid, haccepted, hlocated, hmark⟩ := h.closing _ hmem i hi
        have hsame : b = block :=
          List.inj_on_of_nodup_map h.blockIds hb hblockmem (hbid.trans hblockid.symm)
        subst hsame
        have hopen : b.roundClosed = false := by
          have hactive : round.outline.active = true := hfound.1
          rw [hmark, hactive]
          rfl
        refine Closes.orderly ⟨hcurrent, hclosed, hb, haccepted, hlocated.trans hid, hopen, ?_,
          rfl, rfl, rfl, rfl, ?_⟩ h
        · have hupdate := outlines_updateCurrent (s := s)
            (o := ⟨s.currentRoundId, false, some b.id⟩)
            (f := fun r => { r with
              active := false
              coverageComplete := false }) h.ids hcurrent ?_
          · rw [← hupdate, hid]
            exact List.map_append
          · intro r hr
            have hrid : r.id = s.currentRoundId := congrArg Outline.id hr
            have hrlast : r.closingBlockId = last := congrArg Outline.closing hr
            unfold Round.outline
            dsimp only
            rw [hrid, hrlast, ← hlast, hi, hblockid]
        · rw [← hid]
          rfl

theorem orderly_noteGap (row : EventRow) (gap : Bool) (h : Orderly s) :
    Orderly (noteGap row gap s) := by
  unfold noteGap
  split
  · exact orderly_recoverClosingRound _ (orderly_markIncomplete _ h)
  · exact h

theorem orderly_observePosition {row : EventRow} {session : ℕ} {observed : Store κ} (h : Orderly s)
    (hobserve : observePosition row session s = some observed) : Orderly observed := by
  unfold observePosition at hobserve
  dsimp only at hobserve
  split at hobserve
  · cases hobserve
  · cases hobserve
    exact (orderly_noteGap row _ h).congr rfl rfl rfl rfl rfl rfl

/-- Only blocks that were not accepted are pruned. -/
theorem orderly_pruneBlocks (cfg : Settings κ) (h : Orderly s) : Orderly (pruneBlocks cfg s) := by
  have hkept : ∀ b ∈ s.blocks, b.accepted = true → b ∈ (pruneBlocks cfg s).blocks := by
    intro b hb haccepted
    refine List.mem_filter.mpr ⟨hb, ?_⟩
    rw [haccepted]
    rfl
  have hsub : ∀ b ∈ (pruneBlocks cfg s).blocks, b ∈ s.blocks :=
    fun b hb => List.mem_of_mem_filter hb
  constructor
  · exact h.current
  · exact h.ids
  · exact h.fresh
  · exact h.blockIds.sublist (List.filter_sublist.map _)
  · exact fun b hb => h.freshBlocks b (hsub b hb)
  · intro o ho i hi
    obtain ⟨b, hb, hid, haccepted, hrest⟩ := h.closing o ho i hi
    exact ⟨b, hkept b hb haccepted, hid, haccepted, hrest⟩
  · exact h.closed
  · exact fun b hb => h.marked b (hsub b hb)
  · exact fun b hb => h.located b (hsub b hb)
  · exact h.closings

/-- A block is recorded under the current round, which it may close. -/
structure Appends (closed : List Outline) (last last' : Option ℕ) (block : Block κ)
    (s s' : Store κ) : Prop where
  current : outlines s = closed ++ [⟨s.currentRoundId, true, last⟩]
  inactive : ∀ o ∈ closed, o.active = false
  id : block.id = s.nextBlockId
  located : block.roundId = s.currentRoundId
  opened : block.roundClosed = false
  last_eq : last' = last ∨ block.accepted = true ∧ last' = some block.id
  outlines_eq : outlines s' = closed ++ [⟨s.currentRoundId, true, last'⟩]
  blocks_eq : s'.blocks = s.blocks ++ [block]
  currentRoundId : s'.currentRoundId = s.currentRoundId
  nextRoundId : s'.nextRoundId = s.nextRoundId
  nextBlockId : s'.nextBlockId = s.nextBlockId + 1
  closings_eq : s'.closings = s.closings

namespace Appends

variable {s' : Store κ} {closed : List Outline} {last last' : Option ℕ} {block : Block κ}
  (c : Appends closed last last' block s s') (h : Orderly s)

include c

theorem outline_cases {o : Outline} (ho : o ∈ outlines s') :
    o ∈ outlines s ∧ o ∈ closed ∨ o = ⟨s.currentRoundId, true, last'⟩ := by
  rw [c.outlines_eq] at ho
  rcases List.mem_append.mp ho with ho | ho
  · refine Or.inl ⟨?_, ho⟩
    rw [c.current]
    exact List.mem_append_left _ ho
  · exact Or.inr (List.mem_singleton.mp ho)

theorem lastOld : (⟨s.currentRoundId, true, last⟩ : Outline) ∈ outlines s := by
  rw [c.current]
  exact List.mem_append_right _ (List.mem_singleton_self _)

theorem lastNew : (⟨s.currentRoundId, true, last'⟩ : Outline) ∈ outlines s' := by
  rw [c.outlines_eq]
  exact List.mem_append_right _ (List.mem_singleton_self _)

/-- The current round may be known by another block, the others stay. -/
theorem outline_of_old {o : Outline} (ho : o ∈ outlines s) :
    o ∈ outlines s' ∨ o = ⟨s.currentRoundId, true, last⟩ := by
  rw [c.current] at ho
  rcases List.mem_append.mp ho with ho | ho
  · rw [c.outlines_eq]
    exact Or.inl (List.mem_append_left _ ho)
  · exact Or.inr (List.mem_singleton.mp ho)

theorem block_cases {b : Block κ} (hb : b ∈ s'.blocks) : b ∈ s.blocks ∨ b = block := by
  rw [c.blocks_eq] at hb
  rcases List.mem_append.mp hb with hb | hb
  · exact Or.inl hb
  · exact Or.inr (List.mem_singleton.mp hb)

theorem ids_eq : (outlines s').map Outline.id = (outlines s).map Outline.id := by
  rw [c.current, c.outlines_eq, List.map_append, List.map_append]
  rfl

include h

theorem blockIds : (s'.blocks.map Block.id).Nodup := by
  rw [c.blocks_eq, List.map_append, List.map_singleton]
  refine List.nodup_append.mpr ⟨h.blockIds, List.nodup_singleton _, ?_⟩
  intro i hi j hj heq
  obtain ⟨b, hb, rfl⟩ := List.mem_map.mp hi
  have hfresh := h.freshBlocks b hb
  rw [heq, List.mem_singleton.mp hj, c.id] at hfresh
  exact Nat.lt_irrefl _ hfresh

theorem closing {o : Outline} (ho : o ∈ outlines s') {i : ℕ} (hi : o.closing = some i) :
    ∃ b ∈ s'.blocks, b.id = i ∧ b.accepted = true ∧ b.roundId = o.id ∧
      b.roundClosed = !o.active := by
  rw [c.blocks_eq]
  have hearlier : o ∈ outlines s → ∃ b ∈ s.blocks ++ [block], b.id = i ∧ b.accepted = true ∧
      b.roundId = o.id ∧ b.roundClosed = !o.active := by
    intro ho
    obtain ⟨b, hb, hrest⟩ := h.closing o ho i hi
    exact ⟨b, List.mem_append_left _ hb, hrest⟩
  rcases c.outline_cases ho with ⟨ho, -⟩ | rfl
  · exact hearlier ho
  · rcases c.last_eq with rfl | ⟨haccepted, rfl⟩
    · exact hearlier c.lastOld
    · exact ⟨block, List.mem_append_right _ (List.mem_singleton_self _), Option.some.inj hi,
        haccepted, c.located, c.opened⟩

theorem marked {b : Block κ} (hb : b ∈ s'.blocks) (hmark : b.roundClosed = true) :
    ∃ o ∈ outlines s', o.active = false ∧ o.closing = some b.id := by
  rcases c.block_cases hb with hb | rfl
  · obtain ⟨o, ho, hinactive, hclosing⟩ := h.marked b hb hmark
    rcases c.outline_of_old ho with ho | rfl
    · exact ⟨o, ho, hinactive, hclosing⟩
    · cases hinactive
  · rw [c.opened] at hmark
    cases hmark

theorem roundOf {b : Block κ} (hb : b ∈ s'.blocks) : ∃ o ∈ outlines s', o.id = b.roundId := by
  rcases c.block_cases hb with hb | rfl
  · obtain ⟨o, ho, hid⟩ := h.located b hb
    rcases c.outline_of_old ho with ho | rfl
    · exact ⟨o, ho, hid⟩
    · exact ⟨_, c.lastNew, hid⟩
  · exact ⟨_, c.lastNew, c.located.symm⟩

theorem orderly : Orderly s' where
  current := ⟨closed, last', by rw [c.outlines_eq, c.currentRoundId], c.inactive⟩
  ids := by
    rw [c.ids_eq]
    exact h.ids
  fresh := by
    intro o ho
    rw [c.nextRoundId]
    rcases c.outline_cases ho with ⟨ho, -⟩ | rfl
    · exact h.fresh o ho
    · have hlt : s.currentRoundId < s.nextRoundId := h.fresh _ c.lastOld
      exact hlt
  blockIds := c.blockIds h
  freshBlocks := by
    intro b hb
    rw [c.nextBlockId]
    rcases c.block_cases hb with hb | rfl
    · exact Nat.lt_succ_of_lt (h.freshBlocks b hb)
    · rw [c.id]
      exact Nat.lt_succ_self _
  closing := fun _ ho _ hi => c.closing h ho hi
  closed := by
    intro o ho hinactive
    rcases c.outline_cases ho with ⟨ho, -⟩ | rfl
    · exact h.closed o ho hinactive
    · cases hinactive
  marked := fun _ hb hmark => c.marked h hb hmark
  located := fun _ hb => c.roundOf h hb
  closings := by
    rw [c.closings_eq, h.closings, c.current, c.outlines_eq, List.filter_append,
      List.filter_append]
    rfl

end Appends

theorem orderly_submissionEvent (cfg : Settings κ) (key : String) (row : EventRow) (h : Orderly s) :
    Orderly (submissionEvent cfg key row s) := by
  unfold submissionEvent
  split
  · apply orderly_pruneBlocks cfg
    obtain ⟨closed, last, hcurrent, hclosed⟩ := h.current
    unfold insertBlock
    split
    · exact h
    · dsimp only
      split
      · next haccepted =>
        refine Appends.orderly ⟨hcurrent, hclosed, rfl, rfl, rfl, Or.inr ⟨haccepted, rfl⟩, ?_, rfl,
          rfl, rfl, rfl, rfl⟩ h
        exact outlines_updateCurrent (s := s) (f := fun r => { r with
          closingBlockId := some s.nextBlockId }) h.ids hcurrent fun r hr => by
            obtain ⟨hid, hactive, -⟩ := Outline.mk.inj hr
            unfold Round.outline
            dsimp only
            rw [hid, hactive]
      · exact Appends.orderly ⟨hcurrent, hclosed, rfl, rfl, rfl, Or.inl rfl,
          hcurrent, rfl, rfl, rfl, rfl, rfl⟩ h
  · exact h

theorem outlines_creditRound (key : String) (row : EventRow) (roundId : ℕ) (s : Store κ) :
    outlines (creditRound key row roundId s) = outlines s :=
  outlines_updateRound (f := fun r => { r with
    creditedHashes := r.creditedHashes + row.minerTargetDiff
    observedDiffSum := r.observedDiffSum + row.shareDiff
    acceptedShares := r.acceptedShares + 1 }) (fun _ => rfl) roundId s

theorem orderly_creditRound (key : String) (row : EventRow) (roundId : ℕ) (h : Orderly s) :
    Orderly (creditRound key row roundId s) := by
  have hcredited := orderly_updateRound (f := fun r => { r with
    creditedHashes := r.creditedHashes + row.minerTargetDiff
    observedDiffSum := r.observedDiffSum + row.shareDiff
    acceptedShares := r.acceptedShares + 1 }) (fun _ => rfl) roundId h
  exact hcredited.congr rfl rfl rfl rfl rfl rfl

theorem orderly_closeRound {block : Block κ} (h : Orderly s) (hblock : block ∈ s.blocks)
    (haccepted : block.accepted = true) (hopen : block.roundClosed = false)
    (hactive : ∀ o ∈ outlines s, o.id = block.roundId → o.active = true) :
    Orderly (closeRound block.roundId block.id s) := by
  obtain ⟨closed, last, hcurrent, hclosed⟩ := h.current
  have hround : block.roundId = s.currentRoundId := by
    obtain ⟨o, ho, hoid⟩ := h.located block hblock
    have heq := eq_current_of_active hcurrent hclosed ho (hactive o ho hoid)
    rw [← hoid, heq]
  unfold closeRound
  dsimp only
  refine Closes.orderly ⟨hcurrent, hclosed, hblock, haccepted, hround,
    hopen, ?_, rfl, rfl, rfl, rfl, ?_⟩ h
  · have hupdate := outlines_updateCurrent (s := s)
      (o := ⟨s.currentRoundId, false, some block.id⟩) (f := fun r => { r with
        active := false
        closingBlockId := some block.id }) h.ids hcurrent ?_
    · rw [← hupdate, hround]
      exact List.map_append
    · intro r hr
      have hrid : r.id = s.currentRoundId := congrArg Outline.id hr
      unfold Round.outline
      dsimp only
      rw [hrid]
  · rw [← hround]
    rfl

theorem orderly_resumeRound (boundary : Bool) (h : Orderly s) :
    Orderly (resumeRound boundary s) := by
  obtain ⟨closed, last, hcurrent, hclosed⟩ := h.current
  unfold resumeRound
  split
  · next hnone =>
    obtain ⟨r, hr, hid⟩ := (oneOpen_of_orderly h).one
    have hmem : r ∈ s.rounds.filter Round.active := by
      rw [hr]
      exact List.mem_singleton_self _
    obtain ⟨hmem, hactive⟩ := List.mem_filter.mp hmem
    have hnone := List.find?_eq_none.mp hnone r (List.mem_reverse.mpr hmem)
    exact absurd hactive hnone
  · next current hfound =>
    have hmem := List.mem_reverse.mp (List.mem_of_find?_eq_some hfound)
    have hactive : current.active = true := List.find?_some hfound
    have heq := eq_current_of_active hcurrent hclosed (List.mem_map_of_mem hmem) hactive
    have hid : current.id = s.currentRoundId := congrArg Outline.id heq
    dsimp only
    rw [hid]
    split
    · exact h
    · exact (orderly_markIncomplete s.currentRoundId h).congr rfl rfl rfl rfl rfl rfl

theorem orderly_initializeStore (runId : String) (h : Orderly s) :
    Orderly (initializeStore runId s) := by
  have hstarted : Orderly { s with
      runId
      tracking := true
      eventCoverageComplete := !s.tracking } := h.congr rfl rfl rfl rfl rfl rfl
  have hresumed := orderly_resumeRound (!s.tracking) hstarted
  unfold initializeStore
  dsimp only
  split
  · exact hresumed
  · exact orderly_recoverClosingRound none hresumed

theorem orderly_start (runId : String) : Orderly (start runId : Store κ) where
  current := ⟨[], none, rfl, fun _ ho => absurd ho List.not_mem_nil⟩
  ids := List.nodup_singleton 1
  fresh := by
    intro o ho
    rw [List.mem_singleton.mp ho]
    exact Nat.lt_succ_self 1
  blockIds := List.nodup_nil
  freshBlocks := fun _ hb => absurd hb List.not_mem_nil
  closing := by
    intro o ho i hi
    rw [List.mem_singleton.mp ho] at hi
    cases hi
  closed := by
    intro o ho hinactive
    rw [List.mem_singleton.mp ho] at hinactive
    cases hinactive
  marked := fun _ hb => absurd hb List.not_mem_nil
  located := fun _ hb => absurd hb List.not_mem_nil
  closings := rfl

theorem orderly_of_marked {marked : Store κ} (h : Orderly s)
    (hmarked : marked = s ∨ marked = s.markIncomplete s.currentRoundId) : Orderly marked ∧
      outlines marked = outlines s ∧ marked.blocks = s.blocks ∧
      marked.currentRoundId = s.currentRoundId ∧ marked.nextRoundId = s.nextRoundId := by
  rcases hmarked with rfl | rfl
  · exact ⟨h, rfl, rfl, rfl, rfl⟩
  · exact ⟨orderly_markIncomplete _ h, outlines_markIncomplete _ s, rfl, rfl, rfl⟩

theorem submissionEvent_of_isAcceptedShare {cfg : Settings κ} {key : String} {row : EventRow}
    (h : isAcceptedShare row = true) : submissionEvent cfg key row s = s := by
  unfold isAcceptedShare at h
  rw [Bool.and_eq_true, decide_eq_true_eq] at h
  unfold submissionEvent
  rw [if_neg]
  rw [h.1]
  intro heq
  cases heq

theorem findRound_of_mem (h : Orderly s) {o : Outline} (ho : o ∈ outlines s) :
    ∃ r, s.findRound o.id = some r ∧ r.outline = o := by
  obtain ⟨r, hr, rfl⟩ := List.mem_map.mp ho
  have hsome : (s.findRound r.outline.id).isSome := by
    unfold Store.findRound
    rw [List.find?_isSome]
    exact ⟨r, hr, by simp [Round.outline]⟩
  obtain ⟨r', hr'⟩ := Option.isSome_iff_exists.mp hsome
  obtain ⟨hmem, hid⟩ := Store.mem_of_findRound hr'
  exact ⟨r', hr', List.inj_on_of_nodup_map h.ids (List.mem_map_of_mem hmem) ho hid⟩

/-- Two open rounds are too many. -/
theorem not_oneOpen_of_two {o o' : Outline} (ho : o ∈ outlines s) (ho' : o' ∈ outlines s)
    (hactive : o.active = true) (hactive' : o'.active = true) (hne : o.id ≠ o'.id) :
    ¬ OneOpen s := by
  intro hone
  obtain ⟨r, hr, -⟩ := hone.one
  have hsingle : ∀ o ∈ outlines s, o.active = true → o = r.outline := by
    intro o ho hactive
    obtain ⟨r', hr', rfl⟩ := List.mem_map.mp ho
    have hmem : r' ∈ s.rounds.filter Round.active := List.mem_filter.mpr ⟨hr', hactive⟩
    rw [hr] at hmem
    rw [List.mem_singleton.mp hmem]
  apply hne
  rw [hsingle o ho hactive, hsingle o' ho' hactive']

theorem mem_outlines_closeRound {o : Outline} {roundId blockId : ℕ} (ho : o ∈ outlines s)
    (hne : o.id ≠ roundId) : o ∈ outlines (closeRound roundId blockId s) := by
  obtain ⟨r, hr, rfl⟩ := List.mem_map.mp ho
  refine List.mem_map_of_mem (List.mem_append_left _ (List.mem_map.mpr ⟨r, hr, if_neg ?_⟩))
  exact hne

end Closing

section Steps

variable [DecidableEq κ] {cfg : Settings κ} {s : Store κ}

/-- The winning share of an accepted block that has not closed a round, although the round that it
was found in is closed. -/
def Stale (cfg : Settings κ) (s : Store κ) : Input → Prop
  | .event row session => ∃ observed block round, observePosition row session s = some observed ∧
      isAcceptedShare row = true ∧ row.minerTargetDiff ≠ 0 ∧
      correlatedBlock cfg row observed = some block ∧ block.roundClosed = false ∧
      observed.findRound block.roundId = some round ∧ round.active = false
  | _ => False

/-- The same, as a test. -/
def staleShare (cfg : Settings κ) (s : Store κ) (row : EventRow) (session : ℕ) : Bool :=
  (observePosition row session s).any fun observed =>
    isAcceptedShare row && row.minerTargetDiff ≠ 0 &&
      (correlatedBlock cfg row observed).any fun block => !block.roundClosed &&
        (observed.findRound block.roundId).any fun round => !round.active

theorem staleShare_of_stale {row : EventRow} {session : ℕ} (h : Stale cfg s (.event row session)) :
    staleShare cfg s row session = true := by
  obtain ⟨observed, block, round, hobserve, haccepted, htarget, hblock, hopen, hfound,
    hinactive⟩ := h
  unfold staleShare
  rw [hobserve, Option.any_some, haccepted, hblock, Option.any_some, hopen, hfound, Option.any_some,
    hinactive, Bool.true_and, decide_eq_true htarget]
  rfl

theorem mem_of_correlatedBlock {row : EventRow} {block : Block κ}
    (h : correlatedBlock cfg row s = some block) : block ∈ s.blocks ∧ block.accepted = true := by
  unfold correlatedBlock at h
  split at h
  · have hfound := List.find?_some h
    rw [Bool.and_eq_true] at hfound
    exact ⟨List.mem_reverse.mp (List.mem_of_find?_eq_some h), hfound.1⟩
  · cases h

/-- A share can be marked as missing its network target without a change to what the rounds are. -/
theorem acceptedShare_eq (cfg : Settings κ) (s : Store κ) (key : String) {row : EventRow}
    (haccepted : isAcceptedShare row = true)
    (htarget : row.minerTargetDiff ≠ 0) : ∃ marked : Store κ,
      (marked = s ∨ marked = s.markIncomplete s.currentRoundId) ∧
      acceptedShare cfg key row s =
        (let block := correlatedBlock cfg row s
        let roundId := (block.map Block.roundId).getD s.currentRoundId
        if (marked.findRound roundId).isNone then marked
        else
          let credited := creditRound key row roundId marked
          match block with
          | some block => if block.roundClosed then credited
              else closeRound roundId block.id credited
          | none => credited) := by
  unfold acceptedShare
  rw [if_pos haccepted, if_neg htarget]
  dsimp only
  split
  · exact ⟨_, Or.inr rfl, rfl⟩
  · exact ⟨s, Or.inl rfl, rfl⟩

theorem orderly_acceptedShare (key : String) (row : EventRow) (h : Orderly s)
    (hfresh : ∀ block, isAcceptedShare row = true → row.minerTargetDiff ≠ 0 →
      correlatedBlock cfg row s = some block → block.roundClosed = false →
      ∀ o ∈ outlines s, o.id = block.roundId → o.active = true) :
    Orderly (acceptedShare cfg key row s) := by
  by_cases haccepted : isAcceptedShare row = true
  · by_cases htarget : row.minerTargetDiff = 0
    · unfold acceptedShare
      rw [if_pos haccepted, if_pos htarget]
      exact orderly_markIncomplete _ h
    · obtain ⟨marked, hmarked, heq⟩ := acceptedShare_eq cfg s key haccepted htarget
      obtain ⟨horderly, houtlines, hblocks, -, -⟩ := orderly_of_marked h hmarked
      rw [heq]
      dsimp only
      split
      · exact horderly
      · have hcredited : ∀ roundId, Orderly (creditRound key row roundId marked) ∧
            outlines (creditRound key row roundId marked) = outlines s := by
          intro roundId
          refine ⟨orderly_creditRound key row roundId horderly, ?_⟩
          rw [← houtlines]
          exact outlines_creditRound key row roundId marked
        split
        · next block hblock =>
          rw [hblock, Option.map_some, Option.getD_some]
          obtain ⟨hcredit, hsame⟩ := hcredited block.roundId
          split
          · exact hcredit
          · next hopen =>
            have hopen : block.roundClosed = false := by simpa using hopen
            obtain ⟨hmem, hacc⟩ := mem_of_correlatedBlock hblock
            apply orderly_closeRound hcredit (hblocks ▸ hmem) hacc hopen
            rw [hsame]
            exact hfresh block haccepted htarget hblock hopen
        · exact (hcredited _).1
  · unfold acceptedShare
    rw [if_neg haccepted]
    exact h

theorem active_of_not_stale {row : EventRow} {session : ℕ} {observed : Store κ} {block : Block κ}
    (hobserved : Orderly observed) (hfresh : ¬ Stale cfg s (.event row session))
    (hobserve : observePosition row session s = some observed)
    (haccepted : isAcceptedShare row = true)
    (htarget : row.minerTargetDiff ≠ 0) (hblock : correlatedBlock cfg row observed = some block)
    (hopen : block.roundClosed = false) :
    ∀ o ∈ outlines observed, o.id = block.roundId → o.active = true := by
  intro o ho hid
  obtain ⟨r, hfound, rfl⟩ := findRound_of_mem hobserved ho
  by_contra hactive
  have hinactive : r.active = false := by simpa [Round.outline] using hactive
  rw [hid] at hfound
  exact hfresh ⟨observed, block, r, hobserve, haccepted, htarget, hblock, hopen, hfound, hinactive⟩

theorem orderly_step (h : Orderly s) {input : Input} (hfresh : ¬ Stale cfg s input) :
    Orderly (step cfg s input) := by
  cases input with
  | event row session =>
      change Orderly (handleEvent cfg row session s)
      unfold handleEvent
      split
      · exact h
      · next observed hobserve =>
        have hobserved := orderly_observePosition h hobserve
        apply orderly_acceptedShare _ row (orderly_submissionEvent cfg _ row hobserved)
        intro block haccepted htarget hblock hopen
        rw [submissionEvent_of_isAcceptedShare haccepted] at hblock ⊢
        exact active_of_not_stale hobserved hfresh hobserve haccepted htarget hblock hopen
  | incomplete => exact orderly_recoverClosingRound none (orderly_markIncomplete _ h)
  | dropped => exact orderly_markIncomplete _ h
  | restart runId => exact orderly_initializeStore runId h

/-- A stale share leaves the current round open and opens another one. -/
theorem not_oneOpen_of_stale (h : Orderly s) {input : Input} (hstale : Stale cfg s input) :
    ¬ OneOpen (step cfg s input) := by
  cases input with
  | event row session =>
      obtain ⟨observed, block, round, hobserve, haccepted, htarget, hblock, hopen, hfound,
        hinactive⟩ := hstale
      change ¬ OneOpen (handleEvent cfg row session s)
      unfold handleEvent
      rw [hobserve]
      dsimp only
      rw [submissionEvent_of_isAcceptedShare haccepted]
      have hobserved := orderly_observePosition h hobserve
      obtain ⟨marked, hmarked, heq⟩ :=
        acceptedShare_eq cfg observed (s.streamKey row session) haccepted htarget
      obtain ⟨horderly, houtlines, -, hcurrent, hnext⟩ := orderly_of_marked hobserved hmarked
      obtain ⟨hroundmem, hroundid⟩ := Store.mem_of_findRound hfound
      have hround : round.outline ∈ outlines observed := List.mem_map_of_mem hroundmem
      have hthere : (marked.findRound block.roundId).isNone = false := by
        obtain ⟨r, hr, -⟩ := findRound_of_mem horderly (houtlines ▸ hround)
        have hr : marked.findRound round.id = some r := hr
        rw [← hroundid, hr]
        rfl
      have hclose : acceptedShare cfg (s.streamKey row session) row observed =
          closeRound block.roundId block.id
            (creditRound (s.streamKey row session) row block.roundId marked) := by
        rw [heq]
        dsimp only
        rw [hblock, Option.map_some, Option.getD_some,
          if_neg (by rw [hthere]; exact Bool.false_ne_true)]
        dsimp only
        rw [hopen, if_neg Bool.false_ne_true]
      rw [hclose]
      generalize hcredited :
        creditRound (s.streamKey row session) row block.roundId marked = credited
      have hsame : outlines credited = outlines observed := by
        rw [← hcredited, ← houtlines]
        exact outlines_creditRound (s.streamKey row session) row block.roundId marked
      have hfresh : credited.nextRoundId = observed.nextRoundId := by
        rw [← hcredited, ← hnext]
        rfl
      obtain ⟨closed, last, hlast, hclosed⟩ := hobserved.current
      have hcurrentmem : (⟨observed.currentRoundId, true, last⟩ : Outline) ∈ outlines observed := by
        rw [hlast]
        exact List.mem_append_right _ (List.mem_singleton_self _)
      have hlater : observed.currentRoundId ≠ block.roundId := by
        intro heq
        have hsame := List.inj_on_of_nodup_map hobserved.ids hround hcurrentmem
          (hroundid.trans heq.symm)
        have hactive : round.active = true := congrArg Outline.active hsame
        rw [hinactive] at hactive
        cases hactive
      refine not_oneOpen_of_two (mem_outlines_closeRound (hsame ▸ hcurrentmem) hlater)
        (?_ : (⟨observed.nextRoundId, true, none⟩ : Outline) ∈ _) rfl rfl ?_
      · rw [← hfresh]
        exact List.mem_map_of_mem (List.mem_append_right _ (List.mem_singleton_self _))
      · have hlt := hobserved.fresh _ hcurrentmem
        exact Nat.ne_of_lt hlt
  | incomplete => exact absurd hstale id
  | dropped => exact absurd hstale id
  | restart runId => exact absurd hstale id

theorem run_append (inputs : List Input) (input : Input) (s : Store κ) :
    run cfg (inputs ++ [input]) s = step cfg (run cfg inputs s) input := List.foldl_append

theorem orderly_run (inputs : List Input) (h : Orderly s)
    (hfresh : ∀ prior input, prior ++ [input] <+: inputs → ¬ Stale cfg (run cfg prior s) input) :
    Orderly (run cfg inputs s) := by
  induction inputs using List.reverseRecOn with
  | nil => exact h
  | append_singleton inputs input ih =>
      rw [run_append]
      refine orderly_step (ih fun prior input hprior => ?_)
        (hfresh inputs input (List.prefix_refl _))
      exact hfresh prior input (hprior.trans (List.prefix_append _ _))

/-- One round is open in every state of a run exactly as long as no stale share arrives. -/
theorem oneOpen_iff (cfg : Settings κ) (runId : String) (inputs : List Input) :
    (∀ prior, prior <+: inputs → OneOpen (run cfg prior (start runId))) ↔
      ∀ prior input, prior ++ [input] <+: inputs →
        ¬ Stale cfg (run cfg prior (start runId)) input := by
  constructor
  · intro hone
    induction inputs using List.reverseRecOn with
    | nil =>
        intro prior input hprior
        have hnil := List.prefix_nil.mp hprior
        exact absurd hnil (List.append_ne_nil_of_right_ne_nil _ (List.cons_ne_nil _ _))
    | append_singleton inputs last ih =>
        have hfresh := ih fun prior hprior => hone prior (hprior.trans (List.prefix_append _ _))
        intro prior input hprior
        rcases List.prefix_concat_iff.mp hprior with heq | hprior
        · obtain ⟨rfl, hinput⟩ := List.append_inj' heq rfl
          intro hstale
          have horderly := orderly_run prior (orderly_start runId) hfresh
          apply not_oneOpen_of_stale horderly hstale
          rw [← run_append]
          exact hone _ hprior
        · exact hfresh prior input hprior
  · intro hfresh prior hprior
    refine oneOpen_of_orderly
      (orderly_run prior (orderly_start runId) fun prior' input hprior' => ?_)
    exact hfresh prior' input (hprior'.trans hprior)

end Steps

section TwoBlocks

/-- Two blocks of one round are accepted, and then their shares. -/
def twoBlocks : List Input :=
  let submitted (seq : ℕ) (template : String) : Input :=
    .event { event := .submitBlockResult, status := .accepted, streamId := "s", eventSeq := seq,
             templateId := template } 1
  let won (seq : ℕ) (template : String) : Input :=
    .event { event := .shareResult, status := .acceptedUpstream, streamId := "s", eventSeq := seq,
             templateId := template, minerTargetDiff := 1000, networkTargetDiff := 5000 } 1
  [submitted 1 "a", submitted 2 "b", won 3 "a", won 4 "b"]

/-- The second share closes the closed round again, and two rounds are open. -/
theorem twoBlocks_open_two :
    let s := run { digest := fun key => key } twoBlocks (start "run")
    ¬ OneOpen s ∧ s.closings = [⟨1, 1⟩, ⟨1, 2⟩] ∧
      s.rounds.map Round.outline = [⟨1, false, some 2⟩, ⟨2, true, none⟩, ⟨3, true, none⟩] := by
  refine ⟨fun h => ?_, ?_, ?_⟩
  · apply absurd h.roundsOnce
    decide
  · decide
  · decide

end TwoBlocks

end SQLiteStore

end XmrigProxy
