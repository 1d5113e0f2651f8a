import XmrigProxy.EventIngestion
import XmrigProxy.Library.Grouped
import XmrigProxy.RoundCoverage

/-! A round that ends complete is one stretch of one stream, as long as the marker of a new stream
is not lost behind the rows that close a round, and no stale share closes a closed one. -/
namespace XmrigProxy

namespace Dashboard

open SQLiteStore

variable {κ : Type}

section Archive

variable {a : Archive κ} {t : Store κ}

/-- The rows since the one that opened the current round are the last that were applied. -/
def Running (a : Archive κ) (id : ℕ) : Prop :=
  ∃ stream first count, a.opened id = some ⟨a.process, stream, first⟩ ∧
    stretch a.process stream first count <:+ a.applied ∧
    a.store.position stream = some (first + count)

structure Covered (a : Archive κ) : Prop where
  orderly : Orderly a.store
  tracking : a.store.tracking = true
  whole : CompleteRoundsWhole a
  running : ∀ r ∈ a.store.rounds, r.active = true → r.coverageComplete = true → Running a r.id
  known : ∀ stream, a.store.position stream ≠ none → stream ∈ a.applied.map Position.stream

theorem suffix_snoc {α : Type} {l l' : List α} {x : α} (h : l <:+ l') : l ++ [x] <:+ l' ++ [x] := by
  obtain ⟨before, rfl⟩ := h
  exact ⟨before, (List.append_assoc _ _ _).symm⟩

theorem id_lt_of_orderly {s : Store κ} (h : Orderly s) {r : Round} (hr : r ∈ s.rounds) :
    r.id < s.nextRoundId :=
  h.fresh r.outline (List.mem_map_of_mem hr)

/-- A closed round has its closing, so that it cannot be among the new ones. -/
theorem not_mem_new_closings {s : Store κ} (hs : Orderly s) (ht : Orderly t)
    (hclosings : s.closings <+: t.closings) {r : Round} (hr : r ∈ s.rounds)
    (hinactive : r.active = false) :
    r.id ∉ (t.closings.drop s.closings.length).map Closing.roundId := by
  obtain ⟨rest, hrest⟩ := hclosings
  have honce := (oneOpen_of_orderly ht).roundsOnce
  rw [← hrest, List.map_append] at honce
  rw [← hrest, List.drop_left]
  obtain ⟨-, -, hdisjoint⟩ := List.nodup_append.mp honce
  have hmem : r.id ∈ s.closings.map Closing.roundId := by
    have hkeys := congrArg (List.map Prod.fst) hs.closings
    rw [List.map_map, List.map_map] at hkeys
    change s.closings.map Closing.roundId = _ at hkeys
    rw [hkeys]
    refine List.mem_map.mpr ⟨r.outline, List.mem_filter.mpr ⟨List.mem_map_of_mem hr, ?_⟩, rfl⟩
    change (!r.active) = true
    rw [hinactive]
    rfl
  exact fun hnew => hdisjoint r.id hmem r.id hnew rfl

theorem whole_advance {position : Option Position} {r : Round} (hs : Orderly a.store)
    (ht : Orderly t) (hclosings : a.store.closings <+: t.closings) (hr : r ∈ a.store.rounds)
    (hinactive : r.active = false) (h : Whole a r.id) : Whole (a.advance position t) r.id := by
  obtain ⟨process, stream, first, count, hopened, hclosed, hsub⟩ := h
  have hold := id_lt_of_orderly hs hr
  refine ⟨process, stream, first, count, ?_, ?_, hsub.trans (List.prefix_append _ _).isInfix⟩
  · unfold Archive.advance
    dsimp only
    rw [if_neg fun hnew => Nat.not_lt.mpr hnew.1 hold]
    exact hopened
  · unfold Archive.advance
    dsimp only
    rw [if_neg (not_mem_new_closings hs ht hclosings hr hinactive)]
    exact hclosed

/-- What leaves no open round complete leaves nothing to be shown about it. -/
theorem covered_advance (h : Covered a) (hmarks : Marks True a.store t) (horderly : Orderly t)
    (htracking : t.tracking = true) (hposition : t.position = a.store.position) :
    Covered (a.advance none t) where
  orderly := horderly
  tracking := htracking
  whole := by
    intro r' hr' hinactive hcomplete
    obtain ⟨r, hr, hid, hactive, hcomplete, -⟩ := hmarks.rounds r' hr' hcomplete
    rw [← hid]
    have hinactive := hactive.trans hinactive
    exact whole_advance h.orderly horderly hmarks.closings hr hinactive
      (h.whole r hr hinactive hcomplete)
  running := by
    intro r' hr' hopen hcomplete
    obtain ⟨r, -, -, hactive, -, hgap⟩ := hmarks.rounds r' hr' hcomplete
    rw [← hactive, hgap trivial] at hopen
    cases hopen
  known := by
    intro stream hknown
    change t.position stream ≠ none at hknown
    rw [hposition] at hknown
    simpa [Archive.advance] using h.known stream hknown

theorem stretch_succ (process : ℕ) (stream : String) (first count : ℕ) :
    stretch process stream first (count + 1) =
      stretch process stream first count ++ [⟨process, stream, first + count + 1⟩] := by
  unfold stretch
  rw [List.range'_concat, List.map_append, List.map_singleton, Nat.one_mul]
  rfl

/-- The row that follows a stretch of its stream, when nothing else was applied since. -/
structure Continues (a : Archive κ) (key : String) (sequence : ℕ) : Prop where
  position : a.store.position key = some (sequence - 1)
  positive : 0 < sequence
  last : ∀ before p, a.applied = before ++ [p] → p.stream = key

theorem running_continues {key : String} {sequence id : ℕ} (h : Running a id)
    (hnext : Continues a key sequence) : ∃ first count,
      a.opened id = some ⟨a.process, key, first⟩ ∧ sequence = first + count + 1 ∧
      stretch a.process key first count <:+ a.applied := by
  obtain ⟨stream, first, count, hopened, hsuffix, hposition⟩ := h
  have hstream : stream = key := by
    obtain ⟨before, hbefore⟩ := hsuffix
    cases count with
    | zero => exact hnext.last before ⟨a.process, stream, first⟩ hbefore.symm
    | succ count =>
        rw [stretch_succ, ← List.append_assoc] at hbefore
        exact hnext.last _ ⟨a.process, stream, first + count + 1⟩ hbefore.symm
  subst hstream
  have hsame := hnext.position
  rw [hposition, Option.some.injEq] at hsame
  have hpositive := hnext.positive
  exact ⟨first, count, hopened, by omega, hsuffix⟩

theorem covered_event {key : String} {sequence : ℕ} {gap : Prop} (h : Covered a)
    (hevolves : Evolves gap a.store t) (horderly : Orderly t) (htracking : t.tracking = true)
    (hposition : t.position = Function.update a.store.position key (some sequence))
    (hnext : currentComplete a.store = true → ¬ gap → Continues a key sequence) :
    Covered (a.advance (some ⟨a.process, key, sequence⟩) t) where
  orderly := horderly
  tracking := htracking
  whole := by
    intro r' hr' hinactive hcomplete
    rcases hevolves.rounds r' hr' hcomplete with ⟨r, hr, hid, hcomplete, hgap, hcase⟩ | ⟨hopen, -⟩
    · rcases hcase with hactive | ⟨hopen, -, hclosed⟩
      · rw [← hid]
        have hinactive := hactive.trans hinactive
        exact whole_advance h.orderly horderly hevolves.closings hr hinactive
          (h.whole r hr hinactive hcomplete)
      · rw [← hid] at hclosed ⊢
        have hcurrent := currentComplete_of_active h.orderly hr hopen hcomplete
        have hsound : ¬ gap := by
          intro hg
          rw [hgap hg] at hopen
          cases hopen
        obtain ⟨first, count, hopened, rfl, hsuffix⟩ :=
          running_continues (h.running r hr hopen hcomplete) (hnext hcurrent hsound)
        have hold := id_lt_of_orderly h.orderly hr
        refine ⟨a.process, key, first, count + 1, ?_, ?_, ?_⟩
        · unfold Archive.advance
          dsimp only
          rw [if_neg fun hnew => Nat.not_lt.mpr hnew.1 hold]
          exact hopened
        · unfold Archive.advance
          dsimp only
          rw [if_pos hclosed]
          rfl
        · rw [stretch_succ]
          exact (suffix_snoc hsuffix).isInfix
    · rw [hopen] at hinactive
      cases hinactive
  running := by
    intro r' hr' hopen hcomplete
    have hnew : (a.advance (some ⟨a.process, key, sequence⟩) t).store.position key =
        some sequence := by
      change t.position key = some sequence
      rw [hposition, Function.update_self]
    rcases hevolves.rounds r' hr' hcomplete with ⟨r, hr, hid, hcomplete, hgap, hcase⟩ |
      ⟨-, hfresh, hlt⟩
    · rcases hcase with hactive | ⟨-, hclosed, -⟩
      · have hopen := hactive.trans hopen
        have hcurrent := currentComplete_of_active h.orderly hr hopen hcomplete
        have hsound : ¬ gap := by
          intro hg
          rw [hgap hg] at hopen
          cases hopen
        obtain ⟨first, count, hopened, rfl, hsuffix⟩ :=
          running_continues (h.running r hr hopen hcomplete) (hnext hcurrent hsound)
        have hold := id_lt_of_orderly h.orderly hr
        rw [← hid]
        refine ⟨key, first, count + 1, ?_, ?_, hnew⟩
        · unfold Archive.advance
          dsimp only
          rw [if_neg fun hnew => Nat.not_lt.mpr hnew.1 hold]
          exact hopened
        · change stretch a.process key first (count + 1) <:+ a.applied ++ _
          rw [stretch_succ]
          exact suffix_snoc hsuffix
      · rw [hclosed] at hopen
        cases hopen
    · refine ⟨key, sequence, 0, ?_, List.suffix_append _ _, hnew⟩
      unfold Archive.advance
      dsimp only
      rw [if_pos ⟨hfresh, hlt⟩]
  known := by
    intro stream hknown
    change t.position stream ≠ none at hknown
    change stream ∈ (a.applied ++ [_]).map Position.stream
    rw [List.map_append]
    by_cases hkey : stream = key
    · apply List.mem_append_right _
      rw [hkey]
      exact List.mem_singleton_self _
    · rw [hposition, Function.update_of_ne hkey] at hknown
      exact List.mem_append_left _ (h.known stream hknown)

end Archive

section Messages

/-- The streams of the rows among messages. -/
def keys (s : Store κ) (messages : List Message) : List String :=
  messages.filterMap fun m => match m with
    | .event row session => some (s.streamKey row session)
    | _ => none

def Archive.streams (a : Archive κ) : List String := a.applied.map Position.stream

theorem keys_append (s : Store κ) (xs ys : List Message) :
    keys s (xs ++ ys) = keys s xs ++ keys s ys := List.filterMap_append

theorem keys_congr {s t : Store κ} (h : t.runId = s.runId) (messages : List Message) :
    keys t messages = keys s messages := by
  unfold keys Store.streamKey
  rw [h]

theorem streamKey_of_streamId {row : EventRow} (h : row.streamId ≠ "") (session : ℕ) (s : Store κ) :
    s.streamKey row session = row.streamId := by
  unfold Store.streamKey
  rw [if_pos h]

theorem streamKey_of_empty {row : EventRow} (h : row.streamId = "") (session : ℕ) (s : Store κ) :
    s.streamKey row session = "v2-" ++ (s.runId ++ "-" ++ toString session) := by
  unfold Store.streamKey
  rw [h, if_neg (fun hne => hne rfl), String.append_assoc, String.append_assoc,
    String.append_assoc]

variable {a : Archive κ}

theorem continues_of_not_gap {row : EventRow} {session : ℕ} (h : Covered a)
    (hsound : ¬ Gap row session a.store)
    (hfirst : row.eventSeq ≠ 1) (hstream : isStreamId row.streamId = true)
    (hgroup : Grouped (fun x => isStreamId x = true)
      (a.streams ++ [a.store.streamKey row session])) :
    Continues a (a.store.streamKey row session) row.eventSeq := by
  unfold Gap at hsound
  rw [not_or] at hsound
  obtain ⟨hnamed, hseq⟩ := hsound
  have hkey := streamKey_of_streamId hnamed session a.store
  rw [hkey] at hseq hgroup ⊢
  unfold sequenceGap at hseq
  split at hseq
  · refine absurd ?_ hseq
    rw [Bool.and_eq_true, decide_eq_true_eq, decide_eq_true_eq]
    exact ⟨hnamed, hfirst⟩
  · next previous hprevious =>
    have hsucc : row.eventSeq = previous + 1 := by simpa using hseq
    refine ⟨?_, by omega, ?_⟩
    · rw [hprevious, hsucc]
      rfl
    · intro before p happlied
      have hmem := h.known row.streamId (by
        rw [hprevious]
        exact Option.some_ne_none _)
      unfold Archive.streams at hgroup
      rw [happlied, List.map_append, List.map_singleton] at hgroup hmem
      exact (Grouped.eq_of_mem hgroup hstream hmem).symm

variable [DecidableEq κ] {cfg : Settings κ}

theorem handle_event (cfg : Settings κ) (a : Archive κ) (row : EventRow) (session : ℕ) :
    (a.handle cfg (.event row session) = a ∧
      (a.handle cfg (.event row session)).store = handleEvent cfg row session a.store) ∨
    ∃ observed, observePosition row session a.store = some observed ∧
      a.handle cfg (.event row session) = a.advance
        (some ⟨a.process, a.store.streamKey row session, row.eventSeq⟩)
        (handleEvent cfg row session a.store) := by
  cases hobserve : observePosition row session a.store with
  | none =>
      have hstore : handleEvent cfg row session a.store = a.store := by
        unfold handleEvent
        rw [hobserve]
      have heq : a.handle cfg (.event row session) = a := by
        unfold Archive.handle
        dsimp only
        rw [hobserve]
      exact Or.inl ⟨heq, by rw [heq, hstore]⟩
  | some observed =>
      refine Or.inr ⟨observed, rfl, ?_⟩
      unfold Archive.handle
      dsimp only
      rw [hobserve]

theorem store_handle_event (row : EventRow) (session : ℕ) (a : Archive κ) :
    (a.handle cfg (.event row session)).store = handleEvent cfg row session a.store := by
  rcases handle_event cfg a row session with
    ⟨-, hstore⟩ | ⟨observed, -, heq⟩
  · exact hstore
  · rw [heq]
    rfl

/-- What is known of the messages that the writer has not applied. -/
structure Prepared (cfg : Settings κ) (a : Archive κ) (messages : List Message) : Prop where
  first : ∀ prior row session, prior ++ [.event row session] <+: messages → row.eventSeq = 1 →
    currentComplete (prior.foldl (Archive.handle cfg) a).store = false
  named : ∀ row session, .event row session ∈ messages → row.streamId ≠ "" →
    isStreamId row.streamId = true
  grouped : Grouped (fun x => isStreamId x = true) (a.streams ++ keys a.store messages)

def staleMessage (cfg : Settings κ) (a : Archive κ) : Message → Bool
  | .event row session => staleShare cfg a.store row session
  | _ => false

/-- Whether one of the messages is a stale share at the time it is applied. -/
def staleBatch (cfg : Settings κ) : Archive κ → List Message → Bool
  | _, [] => false
  | a, m :: rest => staleMessage cfg a m || staleBatch cfg (a.handle cfg m) rest

theorem covered_handle {m : Message} {rest : List Message} (h : Covered a)
    (hprepared : Prepared cfg a (m :: rest)) (hfresh : staleMessage cfg a m = false) :
    Covered (a.handle cfg m) := by
  cases m with
  | event row session =>
      have hnotStale : ¬ Stale cfg a.store (.event row session) := by
        intro hstale
        have hshare : staleShare cfg a.store row session = false := hfresh
        rw [staleShare_of_stale hstale] at hshare
        cases hshare
      have horderly : Orderly (handleEvent cfg row session a.store) :=
        orderly_step h.orderly hnotStale
      rcases handle_event cfg a row session with
        ⟨heq, -⟩ | ⟨observed, hobserve, heq⟩
      · rw [heq]
        exact h
      · rw [heq]
        obtain ⟨hposition, htracking, -⟩ := frame_handleEvent cfg hobserve
        refine covered_event h (evolves_handleEvent h.orderly hnotStale hobserve) horderly
          (htracking.trans h.tracking) hposition ?_
        intro hcurrent hsound
        have hone : row.eventSeq ≠ 1 := by
          intro hone
          have hfirst := hprepared.first [] row session (List.prefix_append _ _) hone
          rw [List.foldl_nil, hcurrent] at hfirst
          cases hfirst
        have hnamed : row.streamId ≠ "" := fun hempty => hsound (Or.inl hempty)
        refine continues_of_not_gap h hsound hone
          (hprepared.named row session List.mem_cons_self hnamed) ?_
        refine hprepared.grouped.sublist ((List.Sublist.refl _).append ?_)
        exact List.singleton_sublist.mpr List.mem_cons_self
  | incomplete =>
      have hframe := frame_handleIncomplete a.store
      exact covered_advance h (marks_handleIncomplete h.orderly)
        (orderly_recoverClosingRound none (orderly_markIncomplete _ h.orderly))
        (hframe.tracking.trans h.tracking) hframe.position
  | sample payload => exact h

/-- A message takes its place among the rows that were applied, or none. -/
theorem streams_handle (cfg : Settings κ) (m : Message) (a : Archive κ) :
    (a.handle cfg m).streams.Sublist (a.streams ++ keys a.store [m]) ∧
      (a.handle cfg m).store.runId = a.store.runId := by
  cases m with
  | event row session =>
      rcases handle_event cfg a row session with
        ⟨heq, -⟩ | ⟨observed, hobserve, heq⟩
      · rw [heq]
        exact ⟨List.sublist_append_left _ _, rfl⟩
      · rw [heq]
        obtain ⟨-, -, hrunId⟩ := frame_handleEvent cfg hobserve
        refine ⟨?_, hrunId⟩
        change ((a.applied ++ [_]).map Position.stream).Sublist _
        rw [List.map_append]
        exact List.Sublist.refl _
  | incomplete =>
      refine ⟨?_, (frame_handleIncomplete a.store).runId⟩
      change ((a.applied ++ []).map Position.stream).Sublist _
      rw [List.append_nil]
      exact List.sublist_append_left _ _
  | sample payload => exact ⟨List.sublist_append_left _ _, rfl⟩

theorem prepared_handle {m : Message} {rest : List Message} (h : Prepared cfg a (m :: rest)) :
    Prepared cfg (a.handle cfg m) rest where
  first := fun prior row session hprefix =>
    h.first (m :: prior) row session ((List.cons_prefix_cons).mpr ⟨rfl, hprefix⟩)
  named := fun row session hmem => h.named row session (List.mem_cons_of_mem m hmem)
  grouped := by
    obtain ⟨hstreams, hrunId⟩ := streams_handle cfg m a
    apply h.grouped.sublist
    rw [keys_congr hrunId, ← List.singleton_append, keys_append, ← List.append_assoc]
    exact hstreams.append (List.Sublist.refl _)

theorem covered_batch {batch rest : List Message} (h : Covered a)
    (hprepared : Prepared cfg a (batch ++ rest)) (hfresh : staleBatch cfg a batch = false) :
    Covered (batch.foldl (Archive.handle cfg) a) := by
  induction batch generalizing a with
  | nil => exact h
  | cons m batch ih =>
      obtain ⟨hone, hrest⟩ := Bool.or_eq_false_iff.mp hfresh
      exact ih (covered_handle h hprepared hone) (prepared_handle hprepared) hrest

theorem streams_batch (cfg : Settings κ) (batch : List Message) (a : Archive κ) :
    (batch.foldl (Archive.handle cfg) a).streams.Sublist (a.streams ++ keys a.store batch) ∧
      (batch.foldl (Archive.handle cfg) a).store.runId = a.store.runId := by
  induction batch generalizing a with
  | nil => exact ⟨List.sublist_append_left _ _, rfl⟩
  | cons m batch ih =>
      obtain ⟨hrest, hrunId'⟩ := ih (a.handle cfg m)
      obtain ⟨hone, hrunId⟩ := streams_handle cfg m a
      refine ⟨hrest.trans ?_, hrunId'.trans hrunId⟩
      rw [keys_congr hrunId, ← List.singleton_append (l := batch), keys_append, ← List.append_assoc]
      exact hone.append (List.Sublist.refl _)

theorem dims_batch (cfg : Settings κ) {b : Archive κ} (h : Dims a.store b.store)
    (batch : List Message) :
    Dims (batch.foldl (Archive.handle cfg) a).store (batch.foldl (Archive.handle cfg) b).store := by
  induction batch generalizing a b with
  | nil => exact h
  | cons m batch ih =>
      apply ih
      cases m with
      | event row session =>
          rw [store_handle_event, store_handle_event]
          exact h.handleEvent row session
      | incomplete => exact h.handleIncomplete
      | sample payload => exact h

theorem credited_batch (cfg : Settings κ) (h : Credited a.store) (batch : List Message) :
    Credited (batch.foldl (Archive.handle cfg) a).store := by
  induction batch generalizing a with
  | nil => exact h
  | cons m batch ih =>
      apply ih
      cases m with
      | event row session =>
          rw [store_handle_event]
          exact credited_step h (.event row session)
      | incomplete => exact (credited_step h .incomplete : Credited (step cfg a.store .incomplete))
      | sample payload => exact h

end Messages

section Runs

variable {s : State κ}

theorem streams_charged (s : State κ) :
    s.charged.streams = s.archive.streams ∧ s.charged.store.runId = s.archive.store.runId := by
  unfold State.charged
  split
  · refine ⟨?_, rfl⟩
    change (s.archive.applied ++ []).map Position.stream = _
    rw [List.append_nil]
    rfl
  · exact ⟨rfl, rfl⟩

theorem covered_charged (h : Covered s.archive) : Covered s.charged := by
  unfold State.charged
  split
  · exact covered_advance h (marks_current h.orderly) (orderly_markIncomplete _ h.orderly)
      h.tracking rfl
  · exact h

theorem credited_charged (h : Credited s.archive.store) : Credited s.charged.store := by
  unfold State.charged
  split
  · exact credited_markIncomplete _ h
  · exact h

/-- A drop that is not charged yet takes the coverage of a round at most. -/
theorem dims_charged (s : State κ) :
    Dims s.charged.store ({ s with dropPending := true } : State κ).charged.store := by
  unfold State.charged
  rw [if_pos rfl]
  split
  · exact Dims.refl _
  · exact dims_markIncomplete _ _

variable [DecidableEq κ] {limits : QueueLimits} {cfg : Settings κ}

/-- The marker of a new stream does not fit behind messages that leave a complete round open,
another one than the drop is charged to; or the writer applies a stale share. -/
def misses (limits : QueueLimits) (cfg : Settings κ) (s : State κ) : Event → Bool
  | .enqueue => match s.pending with
    | [.incomplete, .event row _] => row.eventSeq = 1 && s.overflows limits .incomplete &&
        currentComplete (State.eventual cfg { s with dropPending := true }).store
    | _ => false
  | .apply => match s.writer with
    | .collected batch => staleBatch cfg s.charged batch
    | _ => false
  | _ => false

/-- The streams of all rows that are on their way, the applied ones first. -/
def State.arriving (s : State κ) : List String :=
  s.archive.streams ++ keys s.archive.store (s.waiting ++ s.pending)

structure Sound (cfg : Settings κ) (s : State κ) : Prop where
  covered : Covered s.archive
  credited : Credited s.archive.store
  first : ∀ prior row session, prior ++ [.event row session] <+: s.waiting → row.eventSeq = 1 →
    currentComplete (prior.foldl (Archive.handle cfg) s.charged).store = false
  named : ∀ row session, .event row session ∈ s.waiting ++ s.pending → row.streamId ≠ "" →
    isStreamId row.streamId = true
  grouped : Grouped (fun x => isStreamId x = true) (s.arriving ++ s.streams.head?.toList)
  seen : ∀ k ∈ s.arriving, isStreamId k = true → k ∈ s.streams
  connected : ∀ c, s.connection = some c →
    s.streams.head? = some c ∧ (c ≠ "" → isStreamId c = true)
  unread : s.sourceSequence = none → currentComplete (s.eventual cfg).store = false
  read : ∀ row session, .event row session ∈ s.pending → s.sourceSequence ≠ none
  positive : ∀ k, s.sourceSequence = some k → 0 < k
  next : ∀ row session, s.pending = [.event row session] → row.eventSeq = 1 →
    currentComplete (s.eventual cfg).store = false
  shape : ∀ m rest, s.pending = m :: rest → rest = [] ∨
    m = .incomplete ∧ ∃ row session, rest = [.event row session]

/-- Steps that move no row and change no drop. -/
theorem Sound.congr {s' : State κ} (h : Sound cfg s) (harchive : s'.archive = s.archive)
    (hwaiting : s'.waiting = s.waiting) (hdrop : s'.dropPending = s.dropPending)
    (hpending : s'.pending = s.pending) (hstreams : s'.streams = s.streams)
    (hconnection : s'.connection = s.connection) (hsource : s'.sourceSequence = s.sourceSequence) :
    Sound cfg s' := by
  have hcharged : s'.charged = s.charged := by
    unfold State.charged
    rw [harchive, hdrop]
  have heventual : s'.eventual cfg = s.eventual cfg := by
    unfold State.eventual
    rw [hcharged, hwaiting]
  have harriving : s'.arriving = s.arriving := by
    unfold State.arriving
    rw [harchive, hwaiting, hpending]
  refine ⟨?_, ?_, ?_, ?_, ?_, ?_, ?_, ?_, ?_, ?_, ?_, ?_⟩
  · exact harchive ▸ h.covered
  · exact harchive ▸ h.credited
  · rw [hwaiting, hcharged]
    exact h.first
  · rw [hwaiting, hpending]
    exact h.named
  · rw [harriving, hstreams]
    exact h.grouped
  · rw [harriving, hstreams]
    exact h.seen
  · rw [hconnection, hstreams]
    exact h.connected
  · rw [hsource, heventual]
    exact h.unread
  · rw [hpending, hsource]
    exact h.read
  · rw [hsource]
    exact h.positive
  · rw [hpending, heventual]
    exact h.next
  · rw [hpending]
    exact h.shape

theorem sound_take (h : Sound cfg s) : Sound cfg s.take := by
  unfold State.take
  split
  · next batch m rest hwriter hqueue =>
    split
    · refine h.congr rfl ?_ rfl rfl rfl rfl rfl
      unfold State.waiting
      rw [hwriter, hqueue]
      exact List.append_assoc _ _ _
    · exact h
  · exact h

theorem sound_collect (h : Sound cfg s) : Sound cfg s.collect := by
  unfold State.collect
  split
  · next batch hwriter =>
    split
    · refine h.congr rfl ?_ rfl rfl rfl rfl rfl
      unfold State.waiting
      rw [hwriter]
      rfl
    · exact h
  · exact h

theorem sound_release (h : Sound cfg s) : Sound cfg s.release := by
  unfold State.release
  split
  · next bytes hwriter =>
    refine h.congr rfl ?_ rfl rfl rfl rfl rfl
    unfold State.waiting
    rw [hwriter]
    rfl
  · exact h

/-- The writer only does what was bound to happen. -/
theorem sound_apply (h : Sound cfg s) (hmeets : misses limits cfg s .apply = false) :
    Sound cfg (s.apply limits cfg) := by
  unfold State.apply
  split
  · next batch hwriter =>
    have hfresh : staleBatch cfg s.charged batch = false := by
      unfold misses at hmeets
      dsimp only at hmeets
      rw [hwriter] at hmeets
      exact hmeets
    have hwaiting : s.waiting = batch ++ s.queue := by
      unfold State.waiting
      rw [hwriter]
      rfl
    obtain ⟨hstreams, hrunId⟩ := streams_charged s
    obtain ⟨hbatch, hrunId'⟩ := streams_batch cfg batch s.charged
    rw [hstreams, keys_congr hrunId] at hbatch
    have harriving : ((batch.foldl (Archive.handle cfg) s.charged).streams ++
        keys (batch.foldl (Archive.handle cfg) s.charged).store (s.queue ++ s.pending)).Sublist
          s.arriving := by
      unfold State.arriving
      rw [keys_congr (hrunId'.trans hrunId), hwaiting, List.append_assoc batch, keys_append _ batch,
        ← List.append_assoc]
      exact hbatch.append (List.Sublist.refl _)
    have hprepared : Prepared cfg s.charged (batch ++ s.queue) := by
      refine ⟨?_, ?_, ?_⟩
      · rw [← hwaiting]
        exact h.first
      · rw [← hwaiting]
        exact fun row session hmem => h.named row session (List.mem_append_left _ hmem)
      · rw [hstreams, keys_congr hrunId, ← hwaiting]
        refine h.grouped.sublist (List.Sublist.trans ?_ (List.sublist_append_left _ _))
        unfold State.arriving
        rw [keys_append, ← List.append_assoc]
        exact List.sublist_append_left _ _
    have heventual : (s.queue.foldl (Archive.handle cfg)
        (batch.foldl (Archive.handle cfg) s.charged)) = s.eventual cfg := by
      unfold State.eventual
      rw [hwaiting, List.foldl_append]
    constructor
    · exact covered_batch (covered_charged h.covered) hprepared hfresh
    · exact credited_batch cfg (credited_charged h.credited) batch
    · intro prior row session hprefix hone
      have hfirst := h.first (batch ++ prior) row session
      rw [List.append_assoc, hwaiting, List.prefix_append_right_inj, List.foldl_append] at hfirst
      exact hfirst hprefix hone
    · intro row session hmem
      apply h.named row session
      rw [hwaiting, List.append_assoc]
      exact List.mem_append_right _ hmem
    · exact h.grouped.sublist (harriving.append (List.Sublist.refl _))
    · exact fun k hk => h.seen k (harriving.subset hk)
    · exact h.connected
    · intro hsource
      have hunread := h.unread hsource
      rw [← heventual] at hunread
      exact hunread
    · exact h.read
    · exact h.positive
    · intro row session hpending hone
      have hnext := h.next row session hpending hone
      rw [← heventual] at hnext
      exact hnext
    · exact h.shape
  · exact h

/-- A message that fits is the last one that the writer will apply. -/
theorem sound_put {m : Message} (rest : List Message) {bytes : ℕ} (h : Sound cfg s)
    (hevent : ∀ row session, m = .event row session → .event row session ∈ s.pending ∧
      (row.eventSeq = 1 → currentComplete (s.eventual cfg).store = false))
    (hkeys : keys s.archive.store (m :: rest) = keys s.archive.store s.pending)
    (hrest : ∀ m' ∈ rest, m' ∈ s.pending)
    (hnext : ∀ row session, rest = [.event row session] → row.eventSeq = 1 →
      currentComplete ((s.eventual cfg).handle cfg m).store = false)
    (hshape : ∀ m' rest', rest = m' :: rest' → rest' = [] ∨
      m' = .incomplete ∧ ∃ row session, rest' = [.event row session]) :
    Sound cfg { s with
      queue := s.queue ++ [m]
      queueBytes := bytes
      pending := rest } := by
  have hwaiting : s.writer.batch ++ (s.queue ++ [m]) = s.waiting ++ [m] :=
    (List.append_assoc _ _ _).symm
  have harriving : keys s.archive.store (s.waiting ++ [m] ++ rest) =
      keys s.archive.store (s.waiting ++ s.pending) := by
    rw [List.append_assoc, keys_append, List.singleton_append, hkeys, ← keys_append]
  have heventual : (s.waiting ++ [m]).foldl (Archive.handle cfg) s.charged =
      (s.eventual cfg).handle cfg m := by
    rw [List.foldl_append]
    rfl
  constructor
  · exact h.covered
  · exact h.credited
  · intro prior row session hprefix hone
    change prior ++ [.event row session] <+: s.writer.batch ++ (s.queue ++ [m]) at hprefix
    rw [hwaiting] at hprefix
    rcases List.prefix_concat_iff.mp hprefix with heq | hprefix
    · obtain ⟨rfl, hm⟩ := List.append_inj' heq rfl
      exact (hevent row session (List.cons.inj hm).1.symm).2 hone
    · exact h.first prior row session hprefix hone
  · intro row session hmem
    change .event row session ∈ s.writer.batch ++ (s.queue ++ [m]) ++ rest at hmem
    rw [hwaiting] at hmem
    apply h.named row session
    rcases List.mem_append.mp hmem with hmem | hmem
    · rcases List.mem_append.mp hmem with hmem | hmem
      · exact List.mem_append_left _ hmem
      · have hm := List.mem_singleton.mp hmem
        exact List.mem_append_right _ (hevent row session hm.symm).1
    · exact List.mem_append_right _ (hrest _ hmem)
  · change Grouped _ (s.archive.streams ++ keys s.archive.store
      (s.writer.batch ++ (s.queue ++ [m]) ++ rest) ++ _)
    rw [hwaiting, harriving]
    exact h.grouped
  · change ∀ k ∈ s.archive.streams ++ keys s.archive.store
      (s.writer.batch ++ (s.queue ++ [m]) ++ rest), _
    rw [hwaiting, harriving]
    exact h.seen
  · exact h.connected
  · intro hsource
    change currentComplete ((s.writer.batch ++ (s.queue ++ [m])).foldl (Archive.handle cfg)
      s.charged).store = false
    rw [hwaiting, heventual]
    cases m with
    | event row session => exact absurd hsource (h.read row session (hevent row session rfl).1)
    | incomplete =>
        have hcredited := credited_batch cfg (credited_charged h.credited) s.waiting
        exact not_currentComplete_handleIncomplete hcredited.fresh
    | sample payload => exact h.unread hsource
  · exact fun row session hmem => h.read row session (hrest _ hmem)
  · exact h.positive
  · intro row session hpending hone
    change currentComplete ((s.writer.batch ++ (s.queue ++ [m])).foldl (Archive.handle cfg)
      s.charged).store = false
    rw [hwaiting, heventual]
    exact hnext row session hpending hone
  · exact hshape

/-- A message that does not fit takes coverage away, and changes nothing else. -/
theorem sound_lose (rest : List Message) (h : Sound cfg s)
    (hrest : rest <:+ s.pending)
    (hnext : ∀ row session, rest = [.event row session] → row.eventSeq = 1 →
      currentComplete (State.eventual cfg { s with dropPending := true }).store = false)
    (hshape : ∀ m' rest', rest = m' :: rest' → rest' = [] ∨
      m' = .incomplete ∧ ∃ row session, rest' = [.event row session]) :
    Sound cfg { s with
      dropPending := true
      pending := rest } := by
  have hdims : ∀ messages : List Message,
      currentComplete (messages.foldl (Archive.handle cfg) s.charged).store = false →
      currentComplete (messages.foldl (Archive.handle cfg)
        ({ s with dropPending := true } : State κ).charged).store = false := by
    intro messages hcomplete
    refine Bool.eq_false_iff.mpr fun hlost => ?_
    have hsame := currentComplete_dims (dims_batch cfg (dims_charged s) messages) hlost
    rw [hcomplete] at hsame
    cases hsame
  have harriving : (s.archive.streams ++ keys s.archive.store (s.waiting ++ rest)).Sublist
      s.arriving := by
    unfold State.arriving
    rw [keys_append, keys_append]
    refine (List.Sublist.refl _).append ((List.Sublist.refl _).append ?_)
    exact hrest.sublist.filterMap _
  constructor
  · exact h.covered
  · exact h.credited
  · exact fun prior row session hprefix hone => hdims prior (h.first prior row session hprefix hone)
  · intro row session hmem
    apply h.named row session
    rcases List.mem_append.mp hmem with hmem | hmem
    · exact List.mem_append_left _ hmem
    · exact List.mem_append_right _ (hrest.subset hmem)
  · exact h.grouped.sublist (harriving.append (List.Sublist.refl _))
  · exact fun k hk => h.seen k (harriving.subset hk)
  · exact h.connected
  · exact fun hsource => hdims s.waiting (h.unread hsource)
  · exact fun row session hmem => h.read row session (hrest.subset hmem)
  · exact h.positive
  · exact hnext
  · exact hshape

theorem sound_enqueue (h : Sound cfg s) (hmeets : misses limits cfg s .enqueue = false) :
    Sound cfg (s.step limits cfg .enqueue) := by
  cases hpending : s.pending with
  | nil =>
    have hstep : s.step limits cfg .enqueue = s := by simp only [State.step, hpending]
    rw [hstep]
    exact h
  | cons m rest =>
    have hstep : s.step limits cfg .enqueue = { s.enqueue limits m with pending := rest } := by
      simp only [State.step, hpending]
    rw [hstep]
    have hcases := h.shape m rest hpending
    have hshape : ∀ m' rest', rest = m' :: rest' → rest' = [] ∨
        m' = .incomplete ∧ ∃ row session, rest' = [.event row session] := by
      rintro m' rest' rfl
      rcases hcases with hnil | ⟨-, row, session, heq⟩
      · cases hnil
      · exact Or.inl (List.cons.inj heq).2
    unfold State.enqueue
    split
    · next hover =>
      have hlost : Sound cfg { s with
          dropPending := true
          pending := rest } := by
        refine sound_lose rest h ?_ ?_ hshape
        · rw [hpending]
          exact List.suffix_cons _ _
        · rintro row session rfl hone
          rcases hcases with hnil | ⟨rfl, -⟩
          · cases hnil
          · unfold misses at hmeets
            dsimp only at hmeets
            rw [hpending] at hmeets
            dsimp only at hmeets
            rw [hone, hover] at hmeets
            exact hmeets
      exact hlost
    · have hput : Sound cfg { s with
          queue := s.queue ++ [m]
          queueBytes := s.queueBytes + limits.size m
          pending := rest } := by
        refine sound_put rest h ?_ (by rw [hpending]) ?_ ?_ hshape
        · rintro row session rfl
          rcases hcases with rfl | ⟨heq, -⟩
          · exact ⟨hpending ▸ List.mem_cons_self, h.next row session hpending⟩
          · cases heq
        · intro m' hm'
          rw [hpending]
          exact List.mem_cons_of_mem m hm'
        · rintro row session rfl -
          rcases hcases with hnil | ⟨rfl, -⟩
          · cases hnil
          · have hcredited := credited_batch cfg (credited_charged h.credited) s.waiting
            exact not_currentComplete_handleIncomplete hcredited.fresh
      exact hput

theorem sound_sample (payload : String) (h : Sound cfg s) :
    Sound cfg (s.step limits cfg (.sample payload)) := by
  change Sound cfg (s.enqueue limits (.sample payload))
  unfold State.enqueue
  split
  · refine sound_lose s.pending h (List.suffix_refl _) ?_ h.shape
    intro row session hpending hone
    refine Bool.eq_false_iff.mpr fun hlost => ?_
    have hsame := currentComplete_dims (dims_batch cfg (dims_charged s) s.waiting) hlost
    have hnext := h.next row session hpending hone
    unfold State.eventual at hnext
    rw [hsame] at hnext
    cases hnext
  · refine sound_put s.pending h ?_ rfl (fun _ hm => hm) h.next h.shape
    intro row session heq
    cases heq

end Runs

section Reader

variable [DecidableEq κ] {limits : QueueLimits} {cfg : Settings κ} {s : State κ}

theorem grouped_arriving (h : Sound cfg s) :
    Grouped (fun x => isStreamId x = true) s.arriving :=
  h.grouped.sublist (List.sublist_append_left _ _)

theorem not_isStreamId_empty : isStreamId "" = false := by decide

/-- The key of a row without a stream is not a stream identity. -/
theorem not_isStreamId_v2 (rest : String) : isStreamId ("v2-" ++ rest) = false := by
  refine Bool.eq_false_iff.mpr fun hid => ?_
  unfold isStreamId at hid
  rw [Bool.and_eq_true] at hid
  have hmem : 'v' ∈ ("v2-" ++ rest).toList := by
    rw [String.toList_append]
    exact List.mem_append_left _ (by decide)
  have hhex := List.all_eq_true.mp hid.2 'v' hmem
  revert hhex
  decide

theorem sound_connect (stream : String) (h : Sound cfg s) : Sound cfg (s.connect stream) := by
  unfold State.connect
  split
  · next hguard =>
    obtain ⟨-, -, hname, hstream⟩ := hguard
    have hlast : Grouped (fun x => isStreamId x = true) (s.arriving ++ [stream]) := by
      rcases hstream with rfl | hsame | hnew
      · refine (grouped_arriving h).snoc_new fun hid => ?_
        rw [not_isStreamId_empty] at hid
        cases hid
      · have hgrouped := h.grouped
        rw [hsame] at hgrouped
        exact hgrouped
      · exact (grouped_arriving h).snoc_new fun hid hmem => hnew (h.seen stream hmem hid)
    refine ⟨h.covered, h.credited, h.first, h.named, hlast, ?_, ?_, h.unread, h.read, h.positive,
      h.next, h.shape⟩
    · exact fun k hk hid => List.mem_cons_of_mem _ (h.seen k hk hid)
    · rintro c hc
      obtain rfl := Option.some.inj hc
      refine ⟨rfl, fun hne => ?_⟩
      rcases hname with hempty | hid
      · exact absurd hempty hne
      · exact hid
  · exact h

theorem sound_notice (h : Sound cfg s) (hpending : s.pending = []) :
    Sound cfg { s with pending := [.incomplete] } := by
  have harriving : keys s.archive.store (s.waiting ++ [.incomplete]) =
      keys s.archive.store (s.waiting ++ s.pending) := by
    rw [hpending, keys_append, keys_append]
    rfl
  have hsame : s.archive.streams ++ keys s.archive.store (s.waiting ++ [.incomplete]) =
      s.arriving := by
    rw [harriving]
    rfl
  refine ⟨h.covered, h.credited, h.first, ?_, ?_, ?_, h.connected, h.unread, ?_, h.positive, ?_, ?_⟩
  · intro row session hmem
    apply h.named row session
    rcases List.mem_append.mp hmem with hmem | hmem
    · exact List.mem_append_left _ hmem
    · cases List.mem_singleton.mp hmem
  · have hgrouped := h.grouped
    rw [← hsame] at hgrouped
    exact hgrouped
  · have hseen := h.seen
    rw [← hsame] at hseen
    exact hseen
  · intro row session hmem
    cases List.mem_singleton.mp hmem
  · intro row session heq
    cases (List.cons.inj heq).1
  · intro m rest heq
    exact Or.inl (List.cons.inj heq).2.symm

theorem sound_protocolError (h : Sound cfg s) : Sound cfg s.protocolError := by
  unfold State.protocolError
  split
  · next hpending => exact sound_notice h hpending
  · exact h

theorem sound_endSession (h : Sound cfg s) : Sound cfg s.endSession := by
  unfold State.endSession
  split
  · next hguard =>
    have hnoticed := sound_notice h hguard.2
    refine ⟨hnoticed.covered, hnoticed.credited, hnoticed.first, hnoticed.named, hnoticed.grouped,
      hnoticed.seen, ?_, hnoticed.unread, hnoticed.read, hnoticed.positive, hnoticed.next,
      hnoticed.shape⟩
    intro c hc
    cases hc
  · exact h

/-- A row of the latest stream leaves the streams grouped. -/
theorem grouped_row {row : EventRow} (h : Sound cfg s)
    (hhead : s.streams.head? = some row.streamId) :
    Grouped (fun x => isStreamId x = true)
      (s.arriving ++ [s.archive.store.streamKey row s.session] ++ [row.streamId]) := by
  by_cases hempty : row.streamId = ""
  · rw [streamKey_of_empty hempty, hempty]
    refine ((grouped_arriving h).snoc_new fun hid => ?_).snoc_new fun hid => ?_
    · rw [not_isStreamId_v2] at hid
      cases hid
    · rw [not_isStreamId_empty] at hid
      cases hid
  · have hgrouped := h.grouped
    rw [hhead] at hgrouped
    rw [streamKey_of_streamId hempty]
    exact hgrouped.snoc_last

theorem seen_row {row : EventRow} (h : Sound cfg s)
    (hhead : s.streams.head? = some row.streamId) {k : String}
    (hk : k ∈ s.arriving ++ [s.archive.store.streamKey row s.session])
    (hid : isStreamId k = true) : k ∈ s.streams := by
  rcases List.mem_append.mp hk with hk | hk
  · exact h.seen k hk hid
  · rw [List.mem_singleton.mp hk] at hid ⊢
    by_cases hempty : row.streamId = ""
    · rw [streamKey_of_empty hempty, not_isStreamId_v2] at hid
      cases hid
    · rw [streamKey_of_streamId hempty]
      exact List.mem_of_mem_head? hhead

/-- The row goes on with the stream of the connection. -/
theorem sound_ingest (row : EventRow) (h : Sound cfg s) : Sound cfg (s.ingest row) := by
  unfold State.ingest
  split
  · next hguard =>
    obtain ⟨hconnection, hpending, hpositive⟩ := hguard
    obtain ⟨hhead, hname⟩ := h.connected row.streamId hconnection
    generalize hnotice : (if s.follows row then [] else [Message.incomplete]) = notice
    have hcases : notice = [] ∧ s.follows row = true ∨ notice = [.incomplete] := by
      rw [← hnotice]
      split
      · next hfollows => exact Or.inl ⟨rfl, hfollows⟩
      · exact Or.inr rfl
    have hnone : keys s.archive.store notice = [] := by
      rcases hcases with ⟨rfl, -⟩ | rfl
      · rfl
      · rfl
    have hmem : ∀ row' session', Message.event row' session' ∈ notice ++ [.event row s.session] →
        row' = row ∧ session' = s.session := by
      intro row' session' hmem
      rcases List.mem_append.mp hmem with hmem | hmem
      · rcases hcases with ⟨rfl, -⟩ | rfl
        · cases hmem
        · cases List.mem_singleton.mp hmem
      · cases List.mem_singleton.mp hmem
        exact ⟨rfl, rfl⟩
    have harriving : s.archive.streams ++
        keys s.archive.store (s.waiting ++ (notice ++ [.event row s.session])) =
          s.arriving ++ [s.archive.store.streamKey row s.session] := by
      unfold State.arriving
      rw [keys_append, keys_append, hnone, hpending, List.append_nil, ← List.append_assoc]
      rfl
    refine ⟨h.covered, h.credited, h.first, ?_, ?_, ?_, h.connected, ?_, ?_, ?_, ?_, ?_⟩
    · intro row' session' hevent
      rcases List.mem_append.mp hevent with hevent | hevent
      · exact h.named row' session' (List.mem_append_left _ hevent)
      · rw [(hmem row' session' hevent).1]
        exact hname
    · change Grouped _ (s.archive.streams ++
        keys s.archive.store (s.waiting ++ (notice ++ [.event row s.session])) ++
          s.streams.head?.toList)
      rw [harriving, hhead]
      exact grouped_row h hhead
    · change ∀ k ∈ s.archive.streams ++
        keys s.archive.store (s.waiting ++ (notice ++ [.event row s.session])), _
      rw [harriving]
      exact fun k hk hid => seen_row h hhead hk hid
    · intro hsource
      cases hsource
    · intro row' session' _ hsource
      cases hsource
    · intro k hk
      obtain rfl := Option.some.inj hk
      exact hpositive
    · intro row' session' heq hone
      rcases hcases with ⟨rfl, hfollows⟩ | rfl
      · have heq : [Message.event row s.session] = [.event row' session'] := heq
        obtain ⟨rfl, -⟩ := Message.event.inj (List.cons.inj heq).1
        unfold State.follows at hfollows
        split at hfollows
        · next hsource => exact h.unread hsource
        · next previous hsource =>
          have hprevious := h.positive previous hsource
          rw [decide_eq_true_eq] at hfollows
          omega
      · have hlength := congrArg List.length heq
        cases hlength
    · intro m rest heq
      rcases hcases with ⟨rfl, -⟩ | rfl
      · exact Or.inl (List.cons.inj heq).2.symm
      · obtain ⟨rfl, rfl⟩ := List.cons.inj heq
        exact Or.inr ⟨rfl, row, s.session, rfl⟩
  · exact h

theorem sound_restart (runId : String) (h : Sound cfg s) : Sound cfg (s.restart runId) := by
  have hmarks := marks_initializeStore runId h.covered.orderly h.covered.tracking
  have hframe := frame_initializeStore runId s.archive.store
  have hadvanced := covered_advance h.covered hmarks
    (orderly_initializeStore runId h.covered.orderly)
    hframe.2 hframe.1
  have hstreams : (s.archive.restart runId).streams = s.archive.streams := by
    change (s.archive.applied ++ []).map Position.stream = _
    rw [List.append_nil]
    rfl
  have harriving : (s.restart runId).arriving = s.archive.streams := by
    unfold State.arriving State.restart
    dsimp only
    rw [hstreams]
    exact List.append_nil _
  have hincomplete : ∀ r ∈ (initializeStore runId s.archive.store).rounds, r.active = true →
      r.coverageComplete = false := by
    intro r' hr' hopen
    refine Bool.eq_false_iff.mpr fun hcomplete => ?_
    obtain ⟨r, -, -, hactive, -, hgap⟩ := hmarks.rounds r' hr' hcomplete
    rw [← hactive, hgap trivial] at hopen
    cases hopen
  refine ⟨?_, ?_, ?_, ?_, ?_, ?_, ?_, ?_, ?_, ?_, ?_, ?_⟩
  · refine ⟨hadvanced.orderly, hadvanced.tracking, hadvanced.whole, ?_, hadvanced.known⟩
    intro r hr hopen hcomplete
    rw [hincomplete r hr hopen] at hcomplete
    cases hcomplete
  · exact credited_initializeStore runId h.credited
  · intro prior row session hprefix
    exact absurd (List.prefix_nil.mp hprefix)
      (List.append_ne_nil_of_right_ne_nil _ (List.cons_ne_nil _ _))
  · intro row session hmem
    cases hmem
  · rw [harriving]
    refine h.grouped.sublist (List.Sublist.append ?_ (List.Sublist.refl _))
    exact List.sublist_append_left _ _
  · rw [harriving]
    exact fun k hk => h.seen k (List.mem_append_left _ hk)
  · intro c hc
    cases hc
  · intro _
    refine not_currentComplete_of_active ?_ hincomplete
    exact orderly_initializeStore runId h.covered.orderly
  · intro row session hmem
    cases hmem
  · intro k hk
    cases hk
  · intro row session heq
    cases heq
  · intro m rest heq
    cases heq

theorem sound_step (e : Event) (h : Sound cfg s) (hmeets : misses limits cfg s e = false) :
    Sound cfg (s.step limits cfg e) := by
  cases e with
  | connect stream => exact sound_connect stream h
  | ingest row => exact sound_ingest row h
  | protocolError => exact sound_protocolError h
  | endSession => exact sound_endSession h
  | enqueue => exact sound_enqueue h hmeets
  | sample payload => exact sound_sample payload h
  | take => exact sound_take h
  | collect => exact sound_collect h
  | apply => exact sound_apply h hmeets
  | release => exact sound_release h
  | restart runId => exact sound_restart runId h

theorem sound_init (limits : QueueLimits) (cfg : Settings κ) (runId : String) :
    Sound cfg (machine limits cfg runId).init := by
  have hopen : ∀ r ∈ (start runId : Store κ).rounds, r.active = true ∧
      r.coverageComplete = false := by
    intro r hr
    rw [List.mem_singleton.mp hr]
    exact ⟨rfl, rfl⟩
  refine ⟨⟨orderly_start runId, rfl, ?_, ?_, ?_⟩, credited_start runId, ?_,
    ?_, ?_, ?_, ?_, ?_, ?_, ?_, ?_, ?_⟩
  · intro r hr hinactive
    rw [(hopen r hr).1] at hinactive
    cases hinactive
  · intro r hr _ hcomplete
    rw [(hopen r hr).2] at hcomplete
    cases hcomplete
  · exact fun stream hknown => absurd rfl hknown
  · intro prior row session hprefix
    exact absurd (List.prefix_nil.mp hprefix)
      (List.append_ne_nil_of_right_ne_nil _ (List.cons_ne_nil _ _))
  · intro row session hmem
    cases hmem
  · intro x y _ hsub
    cases hsub
  · intro k hk
    cases hk
  · intro c hc
    cases hc
  · intro _
    exact not_currentComplete_of_active (orderly_start runId) fun r hr _ => (hopen r hr).2
  · intro row session hmem
    cases hmem
  · intro k hk
    cases hk
  · intro row session heq
    cases heq
  · intro m rest heq
    cases heq

/-- As long as no marker of a new stream is lost behind the rows that close a round, and no stale
share is applied, every round that ends complete is one unbroken stretch of one stream. -/
theorem completeRoundsWhole (limits : QueueLimits) (cfg : Settings κ) (runId : String)
    (es : ℕ → Event) (k : ℕ)
    (hmeets : ∀ j < k, misses limits cfg ((machine limits cfg runId).state es j) (es j) = false) :
    CompleteRoundsWhole ((machine limits cfg runId).state es k).archive := by
  have hsound : Sound cfg ((machine limits cfg runId).state es k) :=
    @Machine.invariant_guarded _ _ _ (machine limits cfg runId) es
      (fun s e => misses limits cfg s e = false) (fun s _ => Sound cfg s)
      (sound_init limits cfg runId)
      (fun _ _ e hmeets h => sound_step e h hmeets) k hmeets
  exact hsound.covered.whole

end Reader

section LostMarker

/-- A submission of a block that is accepted. -/
def submitted (stream : String) (sequence : ℕ) : EventRow where
  event := .submitBlockResult
  status := .accepted
  streamId := stream
  eventSeq := sequence
  templateId := stream

/-- The share that found it. -/
def won (stream : String) (sequence : ℕ) : EventRow where
  event := .shareResult
  status := .acceptedUpstream
  streamId := stream
  eventSeq := sequence
  templateId := stream
  minerTargetDiff := 1000
  networkTargetDiff := 5000

def oldStream : String := "00000000000000000000000000000001"

def newStream : String := "00000000000000000000000000000002"

def keysOnly : Settings (List String) where
  digest := fun key => key

/-- The proxy finds two blocks one after another. -/
def oneStream : List Event :=
  [.connect oldStream, .ingest (submitted oldStream 1), .enqueue,
    .ingest (won oldStream 2), .enqueue, .ingest (submitted oldStream 3), .enqueue,
    .ingest (won oldStream 4), .enqueue,
    .take, .take, .take, .take, .collect, .apply]

set_option maxRecDepth 4000 in
theorem oneStream_whole :
    let reached := (machine { size := fun _ => 300 } keysOnly "run").state
      (follow oneStream .collect) 15
    reached.archive.store.rounds.map (fun r => (r.id, r.active, r.coverageComplete)) =
        [(1, false, false), (2, false, true), (3, true, true)] ∧
      CompleteRoundsWhole reached.archive :=
  ⟨by decide, completeRoundsWhole { size := fun _ => 300 } keysOnly "run"
    (follow oneStream .collect) 15 (by decide)⟩

/-- The proxy is restarted while the queue is full with the rows that close the first round. -/
def twoStreams : List Event :=
  [.connect oldStream, .ingest (submitted oldStream 1), .enqueue,
    .ingest (won oldStream 2), .enqueue, .endSession, .enqueue, .connect newStream,
    .ingest (submitted newStream 1), .enqueue,
    .take, .enqueue, .take, .take, .collect, .apply, .release,
    .ingest (won newStream 2), .enqueue, .take, .collect, .apply]

set_option maxRecDepth 4000 in
/-- Both drops are charged to the first round, and the second one is complete although the rows of
two streams opened and closed it. -/
theorem twoStreams_not_whole :
    let reached := (machine { rows := 2, size := fun _ => 300 } keysOnly "run").state
      (follow twoStreams .collect) 22
    reached.archive.store.rounds.map (fun r => (r.id, r.active, r.coverageComplete)) =
        [(1, false, false), (2, false, true), (3, true, true)] ∧
      reached.archive.opened 2 = some ⟨0, oldStream, 2⟩ ∧
      reached.archive.closed 2 = some ⟨0, newStream, 2⟩ ∧
      ¬ CompleteRoundsWhole reached.archive := by
  intro reached
  have hrounds : reached.archive.store.rounds.map (fun r => (r.id, r.active, r.coverageComplete)) =
      [(1, false, false), (2, false, true), (3, true, true)] := by decide
  have hopened : reached.archive.opened 2 = some ⟨0, oldStream, 2⟩ := by decide
  have hclosed : reached.archive.closed 2 = some ⟨0, newStream, 2⟩ := by decide
  refine ⟨hrounds, hopened, hclosed, fun hwhole => ?_⟩
  have hmem : (2, false, true) ∈
      reached.archive.store.rounds.map fun r => (r.id, r.active, r.coverageComplete) := by
    rw [hrounds]
    decide
  obtain ⟨r, hr, heq⟩ := List.mem_map.mp hmem
  obtain ⟨hid, hinactive, hcomplete⟩ : r.id = 2 ∧ r.active = false ∧ r.coverageComplete = true := by
    simpa using heq
  obtain ⟨process, stream, first, count, hfirst, hlast, -⟩ := hwhole r hr hinactive hcomplete
  rw [hid, hopened] at hfirst
  rw [hid, hclosed] at hlast
  obtain ⟨-, hold, -⟩ := Position.mk.inj (Option.some.inj hfirst)
  obtain ⟨-, hnew, -⟩ := Position.mk.inj (Option.some.inj hlast)
  exact absurd (hold.trans hnew.symm) (by decide)

end LostMarker

end Dashboard

end XmrigProxy
