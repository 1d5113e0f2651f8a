import XmrigProxy.Library.Selection
import XmrigProxy.ShareCoverage

/-! Whatever the event stream tells, the dashboard ranks every accepted share, and ranks it by the
difficulty that its rows told. -/
namespace XmrigProxy.ShareBoard

/-! ### The best shares -/

/-- A row that accepts a share, of which the difficulty is known. -/
def accepts (row : Row) : Bool :=
  isEvent "share_result" row &&
    (isStatus "accepted_local" row || isStatus "accepted_upstream" row) &&
    row (.column .shareDiff) ≠ []

/-- The share that a happening accepts: its row, with what the dashboard knows of the share. -/
def acceptedBy (env : Env) (b : Board) : Happening → Option (Key × Item)
  | .ingest parsed =>
      let observed := b.observeSequence env (rowOf parsed)
      let row := observed.label env (observed.resolveIdentity (rowOf parsed))
      if accepts row then some ((b.session, Board.identity row), observed.item env row) else none
  | _ => none

/-- The shares that were accepted before step `k`. -/
def accepted (env : Env) (es : ℕ → Happening) (k : ℕ) : List (Key × Item) :=
  (List.range k).filterMap fun j => acceptedBy env ((Board.machine env).state es j) (es j)

/-- A share counts again once `seenLimit` others were counted. -/
def count (counted : List (Key × Item)) (entry : Key × Item) : List (Key × Item) :=
  if entry.1 ∈ (counted.map Prod.fst).rtake seenLimit then counted else counted ++ [entry]

/-- The accepted shares, without those that were just told again. -/
def ranked (accepted : List (Key × Item)) : List (Key × Item) := accepted.foldl count []

section Ranked

variable {accepted : List (Key × Item)} {entry : Key × Item}

theorem ranked_concat : ranked (accepted ++ [entry]) = count (ranked accepted) entry := by
  rw [ranked, ranked, List.foldl_append, List.foldl_cons, List.foldl_nil]

theorem ranked_sublist (accepted : List (Key × Item)) : (ranked accepted).Sublist accepted := by
  induction accepted using List.reverseRecOn with
  | nil => exact List.Sublist.refl _
  | append_singleton accepted entry ih =>
      rw [ranked_concat, count]
      split
      · exact ih.trans (List.sublist_append_left _ _)
      · exact ih.append (List.Sublist.refl _)

theorem mem_ranked (accepted : List (Key × Item)) :
    ∀ entry ∈ accepted, entry.1 ∈ (ranked accepted).map Prod.fst := by
  induction accepted using List.reverseRecOn with
  | nil => exact fun _ hentry => absurd hentry List.not_mem_nil
  | append_singleton accepted entry ih =>
      intro other hother
      rw [ranked_concat, count]
      rcases List.mem_append.mp hother with hother | hother
      · split
        · exact ih other hother
        · rw [List.map_append]
          exact List.mem_append_left _ (ih other hother)
      · rw [List.mem_singleton.mp hother]
        split
        · rename_i hseen
          exact List.mem_of_mem_drop hseen
        · rw [List.map_append]
          exact List.mem_append_right _ (List.mem_singleton_self _)

theorem spaced_ranked (accepted : List (Key × Item)) :
    Lru.Spaced seenLimit ((ranked accepted).map Prod.fst) := by
  induction accepted using List.reverseRecOn with
  | nil => exact Lru.spaced_nil _
  | append_singleton accepted entry ih =>
      rw [ranked_concat, count]
      split
      · exact ih
      · rename_i hnew
        rw [List.map_append]
        exact ih.concat hnew

end Ranked

/-- The best shares are those of greatest rank of all that were counted, and the dashboard remembers
the latest of these. -/
structure Ranking (env : Env) (accepted : List (Key × Item)) (b : Board) : Prop where
  selects : Selects env.topLimit Item.rank ((ranked accepted).map Prod.snd) b.top
  sorted : b.top.Pairwise fun x y => y.rank < x.rank
  seen : env.topLimit ≠ 0 → b.seenAccepted = ((ranked accepted).map Prod.fst).rtake seenLimit
  older : ∀ entry ∈ accepted, entry.2.viewerSeq ≤ b.viewerSequence

theorem Item.viewerSeq_of_rank {x y : Item} (h : x.rank = y.rank) : x.viewerSeq = y.viewerSeq := by
  have hsnd := congrArg (fun rank => (ofLex rank).2) h
  simpa [Item.rank] using hsnd

theorem best_perm (items : List Item) :
    (items.mergeSort fun a b => decide (b.rank ≤ a.rank)).Perm items :=
  List.mergeSort_perm _ _

theorem best_sorted (items : List Item) :
    (items.mergeSort fun a b => decide (b.rank ≤ a.rank)).Pairwise fun x y => y.rank ≤ x.rank := by
  have h := @List.pairwise_mergeSort Item (fun a b => decide (b.rank ≤ a.rank))
    (fun a b c hab hbc => by simpa using le_trans (by simpa using hbc) (by simpa using hab))
    (fun a b => by simpa using le_total b.rank a.rank) items
  simpa using h

theorem selects_best (env : Env) {items : List Item} (hranks : (items.map Item.rank).Nodup) :
    Selects env.topLimit Item.rank items (Board.best env items) ∧
      (Board.best env items).Pairwise fun x y => y.rank < x.rank := by
  have hperm := best_perm items
  have hsorted := best_sorted items
  have hnodup : items.Nodup := List.Nodup.of_map _ hranks
  refine ⟨(Selects.take (hperm.nodup_iff.mpr hnodup) hsorted _).congr hperm (List.Perm.refl _), ?_⟩
  have hstrict : (items.mergeSort fun a b => decide (b.rank ≤ a.rank)).Pairwise
      fun x y => x.rank ≠ y.rank :=
    List.pairwise_map.mp ((hperm.map Item.rank).nodup_iff.mpr hranks)
  exact ((hsorted.and hstrict).imp fun h => lt_of_le_of_ne h.1 h.2.symm).sublist
    (List.take_sublist _ _)

namespace Board

variable {env : Env} {accepted : List (Key × Item)} {b : Board} {row : Row}

/-- A row that accepts a share is ranked unless the share is remembered, and no other row is. -/
theorem considerTop_eq (htop : env.topLimit ≠ 0) (row : Row) (b : Board) :
    b.considerTop env row =
      if accepts row ∧ (b.session, identity row) ∉ b.seenAccepted then
        { b with
          seenAccepted := (b.seenAccepted ++ [(b.session, identity row)]).rtake seenLimit
          top := best env (b.top ++ [b.item env row]) }
      else b := by
  unfold considerTop accepts
  by_cases hresult : isEvent "share_result" row = true
  · by_cases hstatus : (isStatus "accepted_local" row || isStatus "accepted_upstream" row) = true
    · have hstatus' : (!isStatus "accepted_local" row && !isStatus "accepted_upstream" row) =
          false := by
        rw [← Bool.not_or, hstatus]
        rfl
      by_cases hdiff : row (.column .shareDiff) = []
      · simp [htop, hresult, hstatus, hstatus', hdiff]
      · by_cases hseen : (b.session, identity row) ∈ b.seenAccepted <;>
          simp [htop, hresult, hstatus, hstatus', hdiff, hseen]
    · have hstatus' : (!isStatus "accepted_local" row && !isStatus "accepted_upstream" row) =
          true := by
        rw [← Bool.not_or, Bool.eq_false_of_not_eq_true hstatus]
        rfl
      simp [htop, hresult, hstatus, hstatus']
  · simp [hresult]

/-- What says which shares are the best. -/
def ranking (b : Board) : List Key × List Item := (b.seenAccepted, b.top)

theorem ranking_congr (h : Ranking env accepted b) {c : Board} (heq : c.ranking = b.ranking)
    (hle : b.viewerSequence ≤ c.viewerSequence) : Ranking env accepted c := by
  obtain ⟨hseen, htop⟩ : c.seenAccepted = b.seenAccepted ∧ c.top = b.top := by
    simpa only [ranking, Prod.mk.injEq] using heq
  constructor
  · rw [htop]
    exact h.selects
  · rw [htop]
    exact h.sorted
  · rw [hseen]
    exact h.seen
  · exact fun entry hentry => (h.older entry hentry).trans hle

/-- A share that was accepted after all others has a rank of its own. -/
theorem ranking_rank (h : Ranking env accepted b) (newest : Item)
    (hnewest : newest.viewerSeq = b.viewerSequence + 1) :
    ((b.top ++ [newest]).map Item.rank).Nodup ∧ newest ∉ (ranked accepted).map Prod.snd := by
  have hless : ∀ item ∈ (ranked accepted).map Prod.snd, item.viewerSeq < newest.viewerSeq := by
    intro item hitem
    obtain ⟨entry, hentry, rfl⟩ := List.mem_map.mp hitem
    rw [hnewest]
    exact Nat.lt_succ_of_le (h.older entry ((ranked_sublist accepted).subset hentry))
  refine ⟨?_, fun hmem => Nat.lt_irrefl _ (hless newest hmem)⟩
  rw [List.map_append, List.map_singleton]
  refine List.nodup_append.mpr ⟨List.pairwise_map.mpr (h.sorted.imp fun hlt => hlt.ne'),
    List.nodup_singleton _, ?_⟩
  intro rank hrank last hlast hsame
  obtain ⟨item, hitem, rfl⟩ := List.mem_map.mp hrank
  rw [List.mem_singleton.mp hlast] at hsame
  exact (hless item (h.selects.subset hitem)).ne (Item.viewerSeq_of_rank hsame)

/-- An accepted share that is not counted again. -/
theorem ranking_passed (h : Ranking env accepted b) {entry : Key × Item}
    (hnewest : entry.2.viewerSeq = b.viewerSequence + 1)
    (hsame : ranked (accepted ++ [entry]) = ranked accepted) :
    Ranking env (accepted ++ [entry]) b.notice := by
  refine ⟨hsame ▸ h.selects, h.sorted, hsame ▸ h.seen, ?_⟩
  intro other hother
  rcases List.mem_append.mp hother with hother | hother
  · exact (h.older other hother).trans (Nat.le_succ _)
  · rw [List.mem_singleton.mp hother, hnewest]
    exact le_rfl

/-- Without a place for a best share none is kept. -/
theorem ranking_none (h : Ranking env accepted b) (htop : env.topLimit = 0) {entry : Key × Item}
    (hnewest : entry.2.viewerSeq = b.viewerSequence + 1) :
    Ranking env (accepted ++ [entry]) b.notice := by
  have hnil : b.top = [] := by
    rw [← List.length_eq_zero_iff, h.selects.length, htop]
    exact Nat.zero_min _
  refine ⟨⟨h.selects.nodup, ?_, ?_, ?_⟩, h.sorted, fun hpos => absurd htop hpos, ?_⟩
  · change b.top ⊆ _
    rw [hnil]
    exact List.nil_subset _
  · change b.top.length = _
    rw [hnil, htop]
    exact (Nat.zero_min _).symm
  · intro x hx
    change x ∈ b.top at hx
    rw [hnil] at hx
    exact absurd hx List.not_mem_nil
  · intro other hother
    rcases List.mem_append.mp hother with hother | hother
    · exact (h.older other hother).trans (Nat.le_succ _)
    · rw [List.mem_singleton.mp hother, hnewest]
      exact le_rfl

/-- An accepted share that was not remembered. -/
theorem ranking_new (h : Ranking env accepted b) (htop : env.topLimit ≠ 0) (row : Row)
    (hnew : (b.session, identity row) ∉ b.seenAccepted) :
    Ranking env (accepted ++ [((b.session, identity row), b.item env row)])
      (notice { b with
        seenAccepted := (b.seenAccepted ++ [(b.session, identity row)]).rtake seenLimit
        top := best env (b.top ++ [b.item env row]) }) := by
  obtain ⟨hranks, hfresh⟩ := ranking_rank h (b.item env row) rfl
  obtain ⟨hselects, hsorted⟩ := selects_best env hranks
  have hcounted : ranked (accepted ++ [((b.session, identity row), b.item env row)]) =
      ranked accepted ++ [((b.session, identity row), b.item env row)] := by
    rw [ranked_concat, count, if_neg]
    rw [← h.seen htop]
    exact hnew
  refine ⟨?_, hsorted, fun _ => ?_, ?_⟩
  · rw [hcounted, List.map_append, List.map_singleton]
    refine h.selects.extend hfresh
      (List.Nodup.of_map _ hranks : (b.top ++ [b.item env row]).Nodup) ?_
      (List.subset_append_left _ _) (List.mem_append_right _ (List.mem_singleton_self _)) hselects
    exact List.append_subset.mpr ⟨fun item hitem =>
      List.mem_append_left _ (h.selects.subset hitem), List.subset_append_right _ _⟩
  · dsimp only [notice]
    rw [h.seen htop, Lru.rtake_rtake_concat, hcounted, List.map_append, List.map_singleton]
  · intro other hother
    change other.2.viewerSeq ≤ b.viewerSequence + 1
    rcases List.mem_append.mp hother with hother | hother
    · exact (h.older other hother).trans (Nat.le_succ _)
    · rw [List.mem_singleton.mp hother]
      exact le_rfl

theorem ranking_considerTop (h : Ranking env accepted b) (row : Row) :
    Ranking env (accepted ++
        if accepts row then [((b.session, identity row), b.item env row)] else [])
      (b.considerTop env row).notice := by
  have hlater : Ranking env accepted b.notice := ranking_congr h rfl (Nat.le_succ _)
  by_cases htop : env.topLimit = 0
  · have hsame : b.considerTop env row = b := by
      rw [considerTop, if_pos (Or.inl htop)]
    rw [hsame]
    split
    · exact ranking_none h htop rfl
    · rw [List.append_nil]
      exact hlater
  · rw [considerTop_eq htop]
    by_cases haccepts : accepts row = true
    · rw [if_pos haccepts]
      by_cases hseen : (b.session, identity row) ∈ b.seenAccepted
      · rw [if_neg fun hboth => hboth.2 hseen]
        apply ranking_passed h rfl
        rw [ranked_concat, count, if_pos]
        rw [← h.seen htop]
        exact hseen
      · rw [if_pos ⟨haccepts, hseen⟩]
        exact ranking_new h htop row hseen
    · rw [if_neg haccepts, if_neg fun hboth => haccepts hboth.1, List.append_nil]
      exact hlater

theorem observeSequence_ranking (env : Env) (row : Row) (b : Board) :
    (b.observeSequence env row).ranking = b.ranking ∧
      b.viewerSequence ≤ (b.observeSequence env row).viewerSequence ∧
      (b.observeSequence env row).session = b.session := by
  unfold observeSequence
  dsimp only
  split
  · exact ⟨rfl, le_rfl, rfl⟩
  · exact ⟨rfl, Nat.le_succ _, rfl⟩

/-- What is remembered of a share is not what it is ranked by. -/
theorem rememberShare_ranking (row : Row) (b : Board) :
    (b.rememberShare row).ranking = b.ranking ∧
      (b.rememberShare row).viewerSequence = b.viewerSequence ∧
      (b.rememberShare row).session = b.session := by
  rw [rememberShare]
  split
  · exact ⟨rfl, rfl, rfl⟩
  · exact ⟨by simp only [ranking], rfl, rfl⟩

theorem item_congr {c : Board} (hsession : c.session = b.session)
    (hsequence : c.viewerSequence = b.viewerSequence) (row : Row) :
    c.item env row = b.item env row := by
  rw [item, item, hsession, hsequence]

theorem ranking_step (h : Ranking env accepted b) (e : Happening) :
    Ranking env (accepted ++ (acceptedBy env b e).toList) (b.step env e) := by
  cases e with
  | beginSession =>
      simp only [acceptedBy, Option.toList_none, List.append_nil]
      exact ranking_congr h rfl (Nat.le_succ _)
  | endSession message =>
      simp only [acceptedBy, Option.toList_none, List.append_nil]
      exact ranking_congr h rfl (Nat.le_succ _)
  | waiting message =>
      simp only [acceptedBy, Option.toList_none, List.append_nil]
      change Ranking env accepted (waiting message b)
      unfold waiting
      dsimp only
      split
      · exact ranking_congr h rfl (Nat.le_succ _)
      · exact ranking_congr h rfl le_rfl
  | protocolError message =>
      simp only [acceptedBy, Option.toList_none, List.append_nil]
      exact ranking_congr h rfl (Nat.le_succ _)
  | fatal message =>
      simp only [acceptedBy, Option.toList_none, List.append_nil]
      exact ranking_congr h rfl (Nat.le_succ _)
  | ingest parsed =>
      obtain ⟨hsame, hle, hsession⟩ := observeSequence_ranking env (rowOf parsed) b
      have hobserved := ranking_congr h hsame hle
      change Ranking env _ (ingest env parsed b)
      unfold ingest acceptedBy
      dsimp only
      generalize b.observeSequence env (rowOf parsed) = observed at hobserved hsession ⊢
      generalize label env (observed.resolveIdentity (rowOf parsed)) observed = row
      rw [← hsession]
      by_cases htells : tells row = true
      · rw [if_pos htells]
        obtain ⟨hkept, hsequence, hidentity⟩ := rememberShare_ranking row observed
        have hremembered := ranking_considerTop (ranking_congr hobserved hkept hsequence.ge) row
        rw [hidentity, item_congr hidentity hsequence] at hremembered
        cases haccepts : accepts row <;> simpa [haccepts] using hremembered
      · rw [if_neg htells]
        have hconsidered := ranking_considerTop hobserved row
        cases haccepts : accepts row <;> simpa [haccepts] using hconsidered

theorem ranking_state (env : Env) (es : ℕ → Happening) (k : ℕ) :
    Ranking env (ShareBoard.accepted env es k) ((machine env).state es k) := by
  induction k with
  | zero =>
      exact ⟨Selects.nil _ _, List.Pairwise.nil, fun _ => (List.rtake_nil _).symm,
        fun _ hentry => absurd hentry List.not_mem_nil⟩
  | succ k ih =>
      have haccepted : ShareBoard.accepted env es (k + 1) = ShareBoard.accepted env es k ++
          (acceptedBy env ((machine env).state es k) (es k)).toList := by
        rw [ShareBoard.accepted, List.range_succ, List.filterMap_append]
        cases hentry : acceptedBy env ((machine env).state es k) (es k) <;>
          simp [ShareBoard.accepted, hentry]
      rw [haccepted]
      exact ranking_step ih (es k)

end Board

/-- Whatever happens, the best shares are the best of all that were accepted: every accepted share
was counted, and was not counted again until many others were. -/
theorem best_shares (env : Env) (es : ℕ → Happening) (k : ℕ) :
    let top := ((Board.machine env).state es k).top
    let counted := ranked (accepted env es k)
    Selects env.topLimit Item.rank (counted.map Prod.snd) top ∧
      (top.Pairwise fun x y => y.rank < x.rank) ∧
      counted.Sublist (accepted env es k) ∧
      (∀ entry ∈ accepted env es k, entry.1 ∈ counted.map Prod.fst) ∧
      Lru.Spaced seenLimit (counted.map Prod.fst) := by
  intro top counted
  have h := Board.ranking_state env es k
  exact ⟨h.selects, h.sorted, ranked_sublist _, mem_ranked _, spaced_ranked _⟩

/-! ### The context of a share -/

/-- What rows tell of a share, one after another. -/
def context (rows : List Row) : Option Context :=
  rows.foldl (fun old row => some (remember row old)) none

def changes (told : List (Key × Row)) : List (Key × (Option Context → Context)) :=
  told.map fun entry => (entry.1, remember entry.2)

namespace Board

variable {env : Env} {b : Board}

/-- What says what is known of the shares. -/
def contexts (b : Board) : ℕ × List (Key × Context) × List (Key × Row) :=
  (b.session, b.shares, b.told)

/-- The contexts are those of the shares of the session that were told of last. -/
structure Tabled (b : Board) : Prop where
  shares : b.shares = Lru.table retainedShares (changes b.told)
  session : ∀ entry ∈ b.told, entry.1.1 = b.session

theorem Tabled.congr {c : Board} (h : Tabled b) (heq : c.contexts = b.contexts) : Tabled c := by
  obtain ⟨hsession, hshares, htold⟩ : c.session = b.session ∧ c.shares = b.shares ∧
      c.told = b.told := by
    simpa only [contexts, Prod.mk.injEq] using heq
  refine ⟨?_, ?_⟩
  · rw [hshares, htold]
    exact h.shares
  · rw [htold, hsession]
    exact h.session

end Board

/-- A row with the verdict of the verifier. -/
def isVerdict (row : Row) : Bool := isEvent "verify_result" row || isEvent "verify_mismatch" row

/-- The last value that is assigned to a field. -/
def assigned (f : Field) (row : Row) : Option (List Char) :=
  (((assignments row).filter fun field => field.1 = f).map Prod.snd).getLast?

/-- The difficulties that the verifier found. -/
def verified (rows : List Row) : List (List Char) :=
  ((rows.filter isVerdict).map fun row => row (.column .shareDiff)).filter (· ≠ [])

/-- A share with a claim, and the verdict on it. -/
def shareRow (sequence event difficulty : String) : Dashboard.ParsedRow
  | .eventSeq => sequence.toList
  | .event => event.toList
  | .shareId => ['7']
  | .shareDiff => difficulty.toList
  | _ => []

end XmrigProxy.ShareBoard
