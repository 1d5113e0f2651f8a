import XmrigProxy.ContextRetention
import XmrigProxy.CreditedWork
import XmrigProxy.RoundInvariants
import XmrigProxy.Library.Selection

/-! The shares that are kept of a round are its big ones and a selection of the highest, as if all
its credited shares were ranked at once. The flags of contexts follow them, as long as no context is
opened when a kept share already refers to it. -/
namespace XmrigProxy

namespace SQLiteStore

namespace Archive

variable {κ : Type}

def creditedIn (roundId : ℕ) (a : Archive κ) : List (CreditedShare κ) :=
  a.credited.filter fun x => x.roundId = roundId

def keptIn (roundId : ℕ) (a : Archive κ) : List (CreditedShare κ) :=
  (a.shares.filter fun x => x.share.roundId = roundId).map ShareRow.share

def topIn (roundId : ℕ) (a : Archive κ) : List (CreditedShare κ) :=
  (a.shares.filter fun x => x.share.roundId = roundId && x.isTop).map ShareRow.share

/-- The kept shares of a round: a selection of the highest, which are those marked as top, and
every big one. -/
structure Retained (cfg : Settings κ) (roundId : ℕ) (a : Archive κ) : Prop where
  once : (a.keptIn roundId).Nodup
  top : Selects cfg.roundTopLimit CreditedShare.shareDiff (a.creditedIn roundId) (a.topIn roundId)
  kept : ∀ x, x ∈ a.keptIn roundId ↔
    x ∈ a.topIn roundId ∨ x ∈ a.creditedIn roundId ∧ cfg.bigShareDifficulty ≤ x.shareDiff

/-- What holds of the share table, in terms of all shares that were credited. -/
structure Retains (cfg : Settings κ) (a : Archive κ) : Prop where
  keys : (a.credited.map CreditedShare.eventKey).Nodup
  bounded : ∀ x ∈ a.credited, x.shareDiff < 10 ^ 20
  rows : ∀ x ∈ a.shares, x.share ∈ a.credited ∧
    (x.isBig = true ↔ cfg.bigShareDifficulty ≤ x.share.shareDiff)
  once : (a.shares.map fun x => x.share.eventKey).Nodup
  big : ∀ x ∈ a.credited, cfg.bigShareDifficulty ≤ x.shareDiff → x ∈ a.shares.map ShareRow.share
  needed : ∀ x ∈ a.shares, x.isTop = true ∨ x.isBig = true
  top : ∀ roundId, Selects cfg.roundTopLimit CreditedShare.shareDiff (a.creditedIn roundId)
    (a.topIn roundId)

section Ranking

variable {x y z : ShareRow κ}

theorem ranksBefore_iff : ranksBefore x y = true ↔ y.share.shareDiffSort < x.share.shareDiffSort ∨
    (x.share.shareDiffSort = y.share.shareDiffSort ∧
      x.share.credit.row.timeUtc ≤ y.share.credit.row.timeUtc) := by
  simp only [ranksBefore, Bool.or_eq_true, Bool.and_eq_true, decide_eq_true_eq]

theorem ranksBefore_trans (x y z : ShareRow κ) (hxy : ranksBefore x y = true)
    (hyz : ranksBefore y z = true) : ranksBefore x z = true := by
  rw [ranksBefore_iff] at hxy hyz ⊢
  rcases hxy with hxy | ⟨hxy, htime⟩
  · rcases hyz with hyz | ⟨hyz, -⟩
    · exact Or.inl (List.lt_trans hyz hxy)
    · exact Or.inl (hyz ▸ hxy)
  · rcases hyz with hyz | ⟨hyz, htime'⟩
    · exact Or.inl (hxy ▸ hyz)
    · exact Or.inr ⟨hxy.trans hyz, String.le_trans htime htime'⟩

theorem ranksBefore_total (x y : ShareRow κ) : (ranksBefore x y || ranksBefore y x) = true := by
  rw [Bool.or_eq_true, ranksBefore_iff, ranksBefore_iff]
  by_cases hlt : x.share.shareDiffSort < y.share.shareDiffSort
  · exact Or.inr (Or.inl hlt)
  · by_cases hgt : y.share.shareDiffSort < x.share.shareDiffSort
    · exact Or.inl (Or.inl hgt)
    · have heq : x.share.shareDiffSort = y.share.shareDiffSort := List.le_antisymm hgt hlt
      rcases String.le_total x.share.credit.row.timeUtc y.share.credit.row.timeUtc with hle | hle
      · exact Or.inl (Or.inr ⟨heq, hle⟩)
      · exact Or.inr (Or.inr ⟨heq.symm, hle⟩)

/-- Texts of twenty digits are compared as the numbers are. -/
theorem shareDiff_le_of_ranksBefore (hy : y.share.shareDiff < 10 ^ 20)
    (h : ranksBefore x y = true) : y.share.shareDiff ≤ x.share.shareDiff := by
  by_contra hlt
  have hsort : x.share.shareDiffSort < y.share.shareDiffSort :=
    Numerals.zfill_lt (by decide) hy (not_le.mp hlt)
  rcases ranksBefore_iff.mp h with hgt | ⟨heq, -⟩
  · exact List.lt_asymm hsort hgt
  · rw [heq] at hsort
    exact List.lt_irrefl _ hsort

def ranked (limit roundId : ℕ) (shares : List (ShareRow κ)) : List (ShareRow κ) :=
  ((shares.filter fun x => x.share.roundId = roundId).mergeSort ranksBefore).take limit

theorem rankedKeys_eq (limit roundId : ℕ) (shares : List (ShareRow κ)) :
    rankedKeys limit roundId shares = (ranked limit roundId shares).map fun x =>
      x.share.eventKey := rfl

theorem mem_of_mem_ranked {limit roundId : ℕ} {shares : List (ShareRow κ)}
    (h : x ∈ ranked limit roundId shares) : x ∈ shares ∧ x.share.roundId = roundId := by
  have hfilter := List.mem_filter.mp (List.mem_mergeSort.mp (List.mem_of_mem_take h))
  exact ⟨hfilter.1, of_decide_eq_true hfilter.2⟩

/-- The ranked shares are a selection of the highest of the table. -/
theorem selects_ranked (limit roundId : ℕ) {shares : List (ShareRow κ)}
    (hnodup : (shares.map ShareRow.share).Nodup)
    (hbounded : ∀ x ∈ shares, x.share.shareDiff < 10 ^ 20) :
    Selects limit CreditedShare.shareDiff
      ((shares.filter fun x => x.share.roundId = roundId).map ShareRow.share)
      ((ranked limit roundId shares).map ShareRow.share) := by
  have hperm := List.mergeSort_perm (shares.filter fun x => x.share.roundId = roundId) ranksBefore
  have hfiltered : ((shares.filter fun x => x.share.roundId = roundId).map ShareRow.share).Nodup :=
    hnodup.sublist (List.filter_sublist.map _)
  have hsorted := List.pairwise_mergeSort ranksBefore_trans ranksBefore_total
    (shares.filter fun x => x.share.roundId = roundId)
  have hdescending : (((shares.filter fun x => x.share.roundId = roundId).mergeSort ranksBefore).map
      ShareRow.share).Pairwise fun x y => y.shareDiff ≤ x.shareDiff := by
    rw [List.pairwise_map]
    refine hsorted.imp_of_mem fun {x y} _ hy hxy => ?_
    have hmem := (List.mem_filter.mp (hperm.subset hy)).1
    exact shareDiff_le_of_ranksBefore (hbounded y hmem) hxy
  have htake := Selects.take (((hperm.map ShareRow.share).nodup_iff).mpr hfiltered)
    hdescending limit
  rw [← List.map_take] at htake
  exact htake.congr (hperm.map ShareRow.share) (List.Perm.refl _)

end Ranking

section Marking

/-- A share after the marks of its round were set anew. -/
def marked (roundId : ℕ) (keys : List (String × ℕ)) (x : ShareRow κ) : ShareRow κ :=
  { x with
    isTop := decide (x.share.eventKey ∈ keys) || (x.isTop && decide (x.share.roundId ≠ roundId)) }

theorem markTop_eq (roundId : ℕ) (keys : List (String × ℕ)) (shares : List (ShareRow κ)) :
    markTop roundId keys shares = shares.map (marked roundId keys) := by
  rw [markTop, List.map_map]
  refine List.map_congr_left fun x _ => ?_
  rw [Function.comp_apply, marked]
  by_cases hround : x.share.roundId = roundId
  · by_cases hkey : x.share.eventKey ∈ keys <;> simp [hround, hkey]
  · by_cases hkey : x.share.eventKey ∈ keys <;> simp [hround, hkey]

@[simp] theorem share_marked (roundId : ℕ) (keys : List (String × ℕ)) (x : ShareRow κ) :
    (marked roundId keys x).share = x.share := rfl

@[simp] theorem isBig_marked (roundId : ℕ) (keys : List (String × ℕ)) (x : ShareRow κ) :
    (marked roundId keys x).isBig = x.isBig := rfl

variable {limit roundId : ℕ} {shares : List (ShareRow κ)}

/-- Keys tell the rows apart, so that the ranked ones are marked and no others. -/
theorem isTop_marked_iff (hkeys : (shares.map fun x => x.share.eventKey).Nodup) {x : ShareRow κ}
    (hx : x ∈ shares) (hround : x.share.roundId = roundId) :
    (marked roundId (rankedKeys limit roundId shares) x).isTop = true ↔
      x ∈ ranked limit roundId shares := by
  have hmem : x.share.eventKey ∈ rankedKeys limit roundId shares ↔
      x ∈ ranked limit roundId shares := by
    rw [rankedKeys_eq]
    constructor
    · intro h
      obtain ⟨y, hy, hkey⟩ := List.mem_map.mp h
      rwa [← List.inj_on_of_nodup_map hkeys (mem_of_mem_ranked hy).1 hx hkey]
    · exact fun h => List.mem_map_of_mem h
  simp [marked, hmem, hround]

/-- The marks of other rounds stay. -/
theorem isTop_marked_other (hkeys : (shares.map fun x => x.share.eventKey).Nodup) {x : ShareRow κ}
    (hx : x ∈ shares) (hround : x.share.roundId ≠ roundId) :
    (marked roundId (rankedKeys limit roundId shares) x).isTop = x.isTop := by
  have hnot : x.share.eventKey ∉ rankedKeys limit roundId shares := by
    rw [rankedKeys_eq]
    intro h
    obtain ⟨y, hy, hkey⟩ := List.mem_map.mp h
    obtain ⟨hmem, hyround⟩ := mem_of_mem_ranked hy
    exact hround (List.inj_on_of_nodup_map hkeys hmem hx hkey ▸ hyround)
  simp [marked, hnot, hround]

/-- What is left of the table after a round was ranked anew. -/
def retain (limit roundId : ℕ) (shares : List (ShareRow κ)) : List (ShareRow κ) :=
  (markTop roundId (rankedKeys limit roundId shares) shares).filter fun x => !isEvicted roundId x

/-- What is deleted of it. -/
def evicted (limit roundId : ℕ) (shares : List (ShareRow κ)) : List (ShareRow κ) :=
  (markTop roundId (rankedKeys limit roundId shares) shares).filter (isEvicted roundId)

theorem mem_retain_iff (hkeys : (shares.map fun x => x.share.eventKey).Nodup) {z : ShareRow κ} :
    z ∈ retain limit roundId shares ↔
      ∃ x ∈ shares, marked roundId (rankedKeys limit roundId shares) x = z ∧
        (x.share.roundId = roundId → x ∈ ranked limit roundId shares ∨ x.isBig = true) := by
  have hkept : ∀ x ∈ shares,
      ((!isEvicted roundId (marked roundId (rankedKeys limit roundId shares) x)) = true ↔
        (x.share.roundId = roundId → x ∈ ranked limit roundId shares ∨ x.isBig = true)) := by
    intro x hx
    by_cases hround : x.share.roundId = roundId
    · rw [← isTop_marked_iff hkeys hx hround]
      simp [isEvicted, hround, or_iff_not_imp_left]
    · simp [isEvicted, hround]
  rw [retain, markTop_eq, List.mem_filter, List.mem_map]
  constructor
  · rintro ⟨⟨x, hx, rfl⟩, hnot⟩
    exact ⟨x, hx, rfl, (hkept x hx).mp hnot⟩
  · rintro ⟨x, hx, rfl, hneeded⟩
    exact ⟨⟨x, hx, rfl⟩, (hkept x hx).mpr hneeded⟩

theorem nodup_keys_retain (hkeys : (shares.map fun x => x.share.eventKey).Nodup) :
    ((retain limit roundId shares).map fun x => x.share.eventKey).Nodup := by
  have hmarked : ((markTop roundId (rankedKeys limit roundId shares) shares).map
      fun x => x.share.eventKey) = shares.map fun x => x.share.eventKey := by
    rw [markTop_eq, List.map_map]
    exact List.map_congr_left fun _ _ => rfl
  exact (hmarked ▸ hkeys).sublist (List.filter_sublist.map _)

end Marking

section Table

variable {cfg : AuditSettings κ} {a : Archive κ} {roundId : ℕ} {x : CreditedShare κ}

theorem mem_creditedIn_iff : x ∈ a.creditedIn roundId ↔ x ∈ a.credited ∧ x.roundId = roundId := by
  rw [creditedIn, List.mem_filter, decide_eq_true_eq]

theorem mem_keptIn_iff : x ∈ a.keptIn roundId ↔
    ∃ y ∈ a.shares, y.share = x ∧ x.roundId = roundId := by
  rw [keptIn, List.mem_map]
  constructor
  · rintro ⟨y, hy, rfl⟩
    obtain ⟨hmem, hround⟩ := List.mem_filter.mp hy
    exact ⟨y, hmem, rfl, of_decide_eq_true hround⟩
  · rintro ⟨y, hy, rfl, hround⟩
    exact ⟨y, List.mem_filter.mpr ⟨hy, decide_eq_true hround⟩, rfl⟩

theorem mem_topIn_iff : x ∈ a.topIn roundId ↔
    ∃ y ∈ a.shares, y.share = x ∧ x.roundId = roundId ∧ y.isTop = true := by
  rw [topIn, List.mem_map]
  constructor
  · rintro ⟨y, hy, rfl⟩
    obtain ⟨hmem, hround⟩ := List.mem_filter.mp hy
    rw [Bool.and_eq_true, decide_eq_true_eq] at hround
    exact ⟨y, hmem, rfl, hround⟩
  · rintro ⟨y, hy, rfl, hround, htop⟩
    refine ⟨y, List.mem_filter.mpr ⟨hy, ?_⟩, rfl⟩
    rw [Bool.and_eq_true, decide_eq_true_eq]
    exact ⟨hround, htop⟩

namespace Retains

theorem nodup_shares (h : Retains cfg.toSettings a) : (a.shares.map ShareRow.share).Nodup := by
  have hkeys : ((a.shares.map ShareRow.share).map CreditedShare.eventKey).Nodup := by
    rw [List.map_map]
    exact h.once
  exact hkeys.of_map

theorem retained (h : Retains cfg.toSettings a) (roundId : ℕ) :
    Retained cfg.toSettings roundId a where
  once := h.nodup_shares.sublist (List.filter_sublist.map _)
  top := h.top roundId
  kept := by
    intro x
    rw [mem_keptIn_iff, mem_topIn_iff, mem_creditedIn_iff]
    constructor
    · rintro ⟨y, hy, rfl, hround⟩
      obtain ⟨hcredited, hbig⟩ := h.rows y hy
      rcases h.needed y hy with htop | hneeded
      · exact Or.inl ⟨y, hy, rfl, hround, htop⟩
      · exact Or.inr ⟨⟨hcredited, hround⟩, hbig.mp hneeded⟩
    · rintro (⟨y, hy, rfl, hround, -⟩ | ⟨⟨hcredited, hround⟩, hbig⟩)
      · exact ⟨y, hy, rfl, hround⟩
      · obtain ⟨y, hy, rfl⟩ := List.mem_map.mp (h.big x hcredited hbig)
        exact ⟨y, hy, rfl, hround⟩

/-- Nothing is kept but what was credited. -/
theorem shareDiff_lt (h : Retains cfg.toSettings a) {y : ShareRow κ} (hy : y ∈ a.shares) :
    y.share.shareDiff < 10 ^ 20 := h.bounded y.share (h.rows y hy).1

end Retains

/-- One more credited share, with a key of its own, and the table that is left of the one with
it. -/
structure Extends (cfg : AuditSettings κ) (new : ShareRow κ) (a a' : Archive κ) : Prop where
  fresh : new.share.eventKey ∉ a.credited.map CreditedShare.eventKey
  bounded : new.share.shareDiff < 10 ^ 20
  isBig : new.isBig = true ↔ cfg.bigShareDifficulty ≤ new.share.shareDiff
  credited : a'.credited = a.credited ++ [new.share]
  shares : a'.shares = retain cfg.roundTopLimit new.share.roundId (a.shares ++ [new])

namespace Extends

variable {new : ShareRow κ} {a' : Archive κ}

theorem creditedIn_same (h : Extends cfg new a a') :
    a'.creditedIn new.share.roundId = a.creditedIn new.share.roundId ++ [new.share] := by
  rw [creditedIn, h.credited, List.filter_append, creditedIn]
  congr 1
  exact List.filter_cons_of_pos (decide_eq_true rfl)

theorem creditedIn_other (h : Extends cfg new a a') (hround : new.share.roundId ≠ roundId) :
    a'.creditedIn roundId = a.creditedIn roundId := by
  have hnone : ([new.share].filter fun x => x.roundId = roundId) = [] :=
    List.filter_cons_of_neg (by simpa using hround)
  rw [creditedIn, h.credited, List.filter_append, hnone, List.append_nil, creditedIn]

theorem nodup_keys (hnew : Extends cfg new a a') (h : Retains cfg.toSettings a) :
    ((a.shares ++ [new]).map fun x => x.share.eventKey).Nodup := by
  rw [List.map_append, List.map_singleton]
  apply h.once.append (List.nodup_singleton _)
  intro key hkey hsame
  obtain ⟨x, hx, rfl⟩ := List.mem_map.mp hkey
  rw [List.mem_singleton] at hsame
  exact hnew.fresh (hsame ▸ List.mem_map_of_mem (h.rows x hx).1)

theorem rows_added (hnew : Extends cfg new a a') (h : Retains cfg.toSettings a) :
    ∀ x ∈ a.shares ++ [new], x.share ∈ a'.credited ∧
      (x.isBig = true ↔ cfg.bigShareDifficulty ≤ x.share.shareDiff) := by
  intro x hx
  rw [hnew.credited]
  rcases List.mem_append.mp hx with hx | hx
  · obtain ⟨hcredited, hbig⟩ := h.rows x hx
    exact ⟨List.mem_append_left _ hcredited, hbig⟩
  · rw [List.mem_singleton.mp hx]
    exact ⟨List.mem_append_right _ (List.mem_singleton_self _), hnew.isBig⟩

theorem bounded_added (hnew : Extends cfg new a a') (h : Retains cfg.toSettings a) :
    ∀ x ∈ a'.credited, x.shareDiff < 10 ^ 20 := by
  rw [hnew.credited]
  intro x hx
  rcases List.mem_append.mp hx with hx | hx
  · exact h.bounded x hx
  · rw [List.mem_singleton.mp hx]
    exact hnew.bounded

theorem mem_shares_iff (hnew : Extends cfg new a a') (h : Retains cfg.toSettings a)
    {z : ShareRow κ} :
    z ∈ a'.shares ↔ ∃ x ∈ a.shares ++ [new],
      marked new.share.roundId
        (rankedKeys cfg.roundTopLimit new.share.roundId (a.shares ++ [new])) x = z ∧
      (x.share.roundId = new.share.roundId →
        x ∈ ranked cfg.roundTopLimit new.share.roundId (a.shares ++ [new]) ∨ x.isBig = true) := by
  rw [hnew.shares]
  exact mem_retain_iff (hnew.nodup_keys h)

/-- The top shares of the round are the ranked ones of the table with the new share. -/
theorem topIn_same (hnew : Extends cfg new a a') (h : Retains cfg.toSettings a) :
    x ∈ a'.topIn new.share.roundId ↔
      x ∈ (ranked cfg.roundTopLimit new.share.roundId (a.shares ++ [new])).map ShareRow.share := by
  have hkeys := hnew.nodup_keys h
  rw [mem_topIn_iff, List.mem_map]
  constructor
  · rintro ⟨z, hz, rfl, hround, htop⟩
    obtain ⟨y, hy, rfl, -⟩ := (hnew.mem_shares_iff h).mp hz
    exact ⟨y, (isTop_marked_iff hkeys hy hround).mp htop, rfl⟩
  · rintro ⟨y, hy, rfl⟩
    obtain ⟨hmem, hround⟩ := mem_of_mem_ranked hy
    exact ⟨_, (hnew.mem_shares_iff h).mpr ⟨y, hmem, rfl, fun _ => Or.inl hy⟩, rfl, hround,
      (isTop_marked_iff hkeys hmem hround).mpr hy⟩

theorem topIn_other (hnew : Extends cfg new a a') (h : Retains cfg.toSettings a)
    (hother : new.share.roundId ≠ roundId) : x ∈ a'.topIn roundId ↔ x ∈ a.topIn roundId := by
  have hkeys := hnew.nodup_keys h
  rw [mem_topIn_iff, mem_topIn_iff]
  constructor
  · rintro ⟨z, hz, rfl, hround, htop⟩
    obtain ⟨y, hy, rfl, -⟩ := (hnew.mem_shares_iff h).mp hz
    rw [share_marked] at hround
    have hyother : y.share.roundId ≠ new.share.roundId := fun heq => hother (heq.symm.trans hround)
    rw [isTop_marked_other hkeys hy hyother] at htop
    rcases List.mem_append.mp hy with hy | hy
    · exact ⟨y, hy, rfl, hround, htop⟩
    · exact absurd (congrArg (fun y => y.share.roundId) (List.mem_singleton.mp hy)) hyother
  · rintro ⟨y, hy, rfl, hround, htop⟩
    have hyother : y.share.roundId ≠ new.share.roundId := fun heq => hother (heq.symm.trans hround)
    have hmem : y ∈ a.shares ++ [new] := List.mem_append_left _ hy
    refine ⟨_, (hnew.mem_shares_iff h).mpr ⟨y, hmem, rfl, fun heq => absurd heq hyother⟩, rfl,
      hround, ?_⟩
    rw [isTop_marked_other hkeys hmem hyother]
    exact htop

/-- What is left and the new share are enough to rank the round as a whole. -/
theorem selects_same (hnew : Extends cfg new a a') (h : Retains cfg.toSettings a) :
    Selects cfg.roundTopLimit CreditedShare.shareDiff (a'.creditedIn new.share.roundId)
      ((ranked cfg.roundTopLimit new.share.roundId (a.shares ++ [new])).map ShareRow.share) := by
  have hadded := hnew.rows_added h
  have hnodup : ((a.shares ++ [new]).map ShareRow.share).Nodup := by
    have hkeys : (((a.shares ++ [new]).map ShareRow.share).map CreditedShare.eventKey).Nodup := by
      rw [List.map_map]
      exact hnew.nodup_keys h
    exact hkeys.of_map
  have hbounded : ∀ x ∈ a.shares ++ [new], x.share.shareDiff < 10 ^ 20 :=
    fun x hx => hnew.bounded_added h x.share (hadded x hx).1
  have hranked := selects_ranked cfg.roundTopLimit new.share.roundId hnodup hbounded
  have hinRound : ∀ x, x ∈ ((a.shares ++ [new]).filter
      fun x => x.share.roundId = new.share.roundId).map ShareRow.share ↔
      ∃ y ∈ a.shares ++ [new], y.share = x ∧ y.share.roundId = new.share.roundId := by
    intro x
    simp only [List.mem_map, List.mem_filter, decide_eq_true_eq]
    exact ⟨fun ⟨y, ⟨hy, hround⟩, hx⟩ => ⟨y, hy, hx, hround⟩,
      fun ⟨y, hy, hx, hround⟩ => ⟨y, ⟨hy, hround⟩, hx⟩⟩
  rw [hnew.creditedIn_same]
  refine (h.top new.share.roundId).extend ?_ (hnodup.sublist (List.filter_sublist.map _)) ?_ ?_ ?_
    hranked
  · intro hmem
    exact hnew.fresh (List.mem_map_of_mem (mem_creditedIn_iff.mp hmem).1)
  · intro x hx
    obtain ⟨y, hy, rfl, hround⟩ := (hinRound x).mp hx
    rw [← hnew.creditedIn_same]
    exact mem_creditedIn_iff.mpr ⟨(hadded y hy).1, hround⟩
  · intro x hx
    obtain ⟨y, hy, rfl, hround, -⟩ := mem_topIn_iff.mp hx
    exact (hinRound _).mpr ⟨y, List.mem_append_left _ hy, rfl, hround⟩
  · exact (hinRound _).mpr ⟨new, List.mem_append_right _ (List.mem_singleton_self _), rfl, rfl⟩

theorem retains (hnew : Extends cfg new a a') (h : Retains cfg.toSettings a) :
    Retains cfg.toSettings a' := by
  have hkeys := hnew.nodup_keys h
  have hadded := hnew.rows_added h
  have honce : (a'.shares.map fun x => x.share.eventKey).Nodup := by
    rw [hnew.shares]
    exact nodup_keys_retain hkeys
  have htopNodup (roundId : ℕ) : (a'.topIn roundId).Nodup := by
    have hshares : ((a'.shares.map ShareRow.share).map CreditedShare.eventKey).Nodup := by
      rw [List.map_map]
      exact honce
    exact hshares.of_map.sublist (List.filter_sublist.map _)
  constructor
  · rw [hnew.credited, List.map_append, List.map_singleton]
    apply h.keys.append (List.nodup_singleton _)
    intro key hkey hsame
    exact hnew.fresh (List.mem_singleton.mp hsame ▸ hkey)
  · exact hnew.bounded_added h
  · intro z hz
    obtain ⟨x, hx, rfl, -⟩ := (hnew.mem_shares_iff h).mp hz
    exact hadded x hx
  · exact honce
  · -- A big share is kept with the table or comes as the new one, and is never evicted.
    intro x hx hbig
    have hrow : ∃ y ∈ a.shares ++ [new], y.share = x := by
      rw [hnew.credited] at hx
      rcases List.mem_append.mp hx with hx | hx
      · obtain ⟨y, hy, rfl⟩ := List.mem_map.mp (h.big x hx hbig)
        exact ⟨y, List.mem_append_left _ hy, rfl⟩
      · exact ⟨new, List.mem_append_right _ (List.mem_singleton_self _),
          (List.mem_singleton.mp hx).symm⟩
    obtain ⟨y, hy, rfl⟩ := hrow
    have hkept := (hnew.mem_shares_iff h).mpr
      ⟨y, hy, rfl, fun _ => Or.inr ((hadded y hy).2.mpr hbig)⟩
    exact List.mem_map.mpr ⟨_, hkept, rfl⟩
  · intro z hz
    obtain ⟨x, hx, rfl, hneeded⟩ := (hnew.mem_shares_iff h).mp hz
    by_cases hround : x.share.roundId = new.share.roundId
    · rw [isTop_marked_iff hkeys hx hround]
      exact hneeded hround
    · rw [isTop_marked_other hkeys hx hround]
      rcases List.mem_append.mp hx with hx | hx
      · exact h.needed x hx
      · exact absurd (congrArg (fun y => y.share.roundId) (List.mem_singleton.mp hx)) hround
  · intro roundId
    by_cases hround : new.share.roundId = roundId
    · subst hround
      have hselects := hnew.selects_same h
      apply hselects.congr (List.Perm.refl _)
      exact (List.perm_ext_iff_of_nodup hselects.nodup (htopNodup _)).mpr
        fun x => (hnew.topIn_same h).symm
    · have hselects := h.top roundId
      rw [hnew.creditedIn_other hround]
      apply hselects.congr (List.Perm.refl _)
      exact (List.perm_ext_iff_of_nodup hselects.nodup (htopNodup _)).mpr
        fun x => (hnew.topIn_other h hround).symm

end Extends

end Table

variable [DecidableEq κ] {cfg : AuditSettings κ} {a : Archive κ}

section Store

/-- What the store sees of an input. -/
def Input.toStore : Input → SQLiteStore.Input
  | .event row viewerSession => .event row.row viewerSession
  | .incomplete => .incomplete
  | .dropped => .dropped
  | .restart runId => .restart runId

/-- The shares are those that the store credited. -/
structure Linked (a : Archive κ) : Prop where
  store : Credited a.store
  credits : a.credited.map CreditedShare.credit = a.store.credits

omit [DecidableEq κ] in
theorem isNone_findRound_markIncomplete (i roundId : ℕ) (s : Store κ) :
    ((s.markIncomplete i).findRound roundId).isNone = (s.findRound roundId).isNone := by
  have hid : ((fun r : Round => decide (r.id = roundId)) ∘ fun r : Round =>
      if r.id = i then { r with coverageComplete := false } else r) =
      fun r : Round => decide (r.id = roundId) := by
    funext r
    rw [Function.comp_apply]
    split
    · rfl
    · rfl
  unfold Store.findRound Store.markIncomplete Store.markRound Store.updateRound
  dsimp only
  rw [List.find?_map, hid, Option.isNone_map]

/-- One credit at most comes with a row, to the round that the share is kept in. -/
theorem credits_acceptedShare_eq (cfg : AuditSettings κ) (key : String) (row : EventRow)
    (s : Store κ) : (acceptedShare cfg.toSettings key row s).credits =
      s.credits ++ ((creditedRound cfg row s).map (Credit.mk key row)).toList := by
  by_cases haccepted : isAcceptedShare row = true
  · by_cases htarget : row.minerTargetDiff = 0
    · have hnone : creditedRound cfg row s = none := by
        rw [creditedRound, if_neg fun h => h.2 htarget]
      rw [hnone, acceptedShare, if_pos haccepted, if_pos htarget]
      exact (List.append_nil _).symm
    · obtain ⟨marked, hmarked, heq⟩ := acceptedShare_eq cfg.toSettings s key haccepted htarget
      have hround : creditedRound cfg row s =
          (s.findRound (((correlatedBlock cfg.toSettings row s).map Block.roundId).getD
            s.currentRoundId)).map fun _ =>
              ((correlatedBlock cfg.toSettings row s).map Block.roundId).getD s.currentRoundId := by
        rw [creditedRound, if_pos ⟨haccepted, htarget⟩]
      rw [heq, hround]
      dsimp only
      generalize correlatedBlock cfg.toSettings row s = block
      generalize (block.map Block.roundId).getD s.currentRoundId = roundId
      have hcredits : marked.credits = s.credits := by
        rcases hmarked with rfl | rfl
        · rfl
        · rfl
      have hfound : (marked.findRound roundId).isNone = (s.findRound roundId).isNone := by
        rcases hmarked with rfl | rfl
        · rfl
        · exact isNone_findRound_markIncomplete _ _ s
      rw [hfound]
      cases s.findRound roundId with
      | none =>
          rw [Option.isNone_none, if_pos rfl, hcredits]
          exact (List.append_nil _).symm
      | some round =>
          rw [Option.isNone_some, if_neg Bool.false_ne_true, ← hcredits]
          cases block with
          | none => rfl
          | some block =>
              dsimp only
              split
              · rfl
              · rfl
  · have hnone : creditedRound cfg row s = none := by
      rw [creditedRound, if_neg fun h => haccepted h.1]
    rw [hnone, acceptedShare, if_neg haccepted]
    exact (List.append_nil _).symm

omit [DecidableEq κ] in
theorem credits_observePosition {row : EventRow} {session : ℕ} {s observed : Store κ}
    (h : observePosition row session s = some observed) : observed.credits = s.credits := by
  unfold observePosition at h
  dsimp only at h
  split at h
  · cases h
  · cases h
    dsimp only
    unfold noteGap
    split
    · exact (reads_recoverClosingRound _ _).1
    · rfl

end Store

section Events

variable {streamKey : String} {row : AuditRow}

/-- Rows of contexts write no table but their own. -/
theorem reads_templateContextEvent (cfg : AuditSettings κ) (streamKey : String) (row : AuditRow)
    (a : Archive κ) :
    (templateContextEvent cfg streamKey row a).store = a.store ∧
      (templateContextEvent cfg streamKey row a).shares = a.shares ∧
      (templateContextEvent cfg streamKey row a).credited = a.credited ∧
      (templateContextEvent cfg streamKey row a).jobContexts = a.jobContexts := by
  unfold templateContextEvent
  split
  · exact ⟨rfl, rfl, rfl, rfl⟩
  · exact ⟨rfl, rfl, rfl, rfl⟩

theorem reads_jobContextEvent (cfg : AuditSettings κ) (streamKey : String) (row : AuditRow)
    (a : Archive κ) :
    (jobContextEvent cfg streamKey row a).store = a.store ∧
      (jobContextEvent cfg streamKey row a).shares = a.shares ∧
      (jobContextEvent cfg streamKey row a).credited = a.credited ∧
      (jobContextEvent cfg streamKey row a).templateContexts = a.templateContexts := by
  unfold jobContextEvent
  split
  · exact ⟨rfl, rfl, rfl, rfl⟩
  · exact ⟨rfl, rfl, rfl, rfl⟩

def writtenTemplate (cfg : AuditSettings κ) (streamKey : String) (row : AuditRow) : Option κ :=
  if row.context = .templateCached ∧ row.row.templateId ≠ "" then
    some (templateKey cfg streamKey row)
  else none

def writtenJob (cfg : AuditSettings κ) (streamKey : String) (row : AuditRow) : Option κ :=
  if (row.context = .templateDerived ∨ row.context = .jobSent) ∧ row.row.jobId ≠ "" then
    some (jobKey cfg streamKey row)
  else none

theorem written_templateContextEvent (cfg : AuditSettings κ) (streamKey : String) (row : AuditRow)
    (a : Archive κ) :
    Contexts.Written cfg.maxPendingTemplateContexts cfg.maxPendingTemplateContextBytes
      a.templateContexts (templateContextEvent cfg streamKey row a).templateContexts
      (writtenTemplate cfg streamKey row) := by
  unfold templateContextEvent writtenTemplate
  split
  · exact ⟨_, _, _, rfl⟩
  · rfl

theorem written_jobContextEvent (cfg : AuditSettings κ) (streamKey : String) (row : AuditRow)
    (a : Archive κ) :
    Contexts.Written cfg.maxPendingJobContexts cfg.maxPendingJobContextBytes
      a.jobContexts (jobContextEvent cfg streamKey row a).jobContexts
      (writtenJob cfg streamKey row) := by
  unfold jobContextEvent writtenJob
  split
  · exact ⟨_, _, _, rfl⟩
  · rfl

/-- Both tables after a row that may be one of a context. -/
def contextEvents (cfg : AuditSettings κ) (streamKey : String) (row : AuditRow) (a : Archive κ) :
    Archive κ := jobContextEvent cfg streamKey row (templateContextEvent cfg streamKey row a)

theorem reads_contextEvents (cfg : AuditSettings κ) (streamKey : String) (row : AuditRow)
    (a : Archive κ) :
    (contextEvents cfg streamKey row a).store = a.store ∧
      (contextEvents cfg streamKey row a).shares = a.shares ∧
      (contextEvents cfg streamKey row a).credited = a.credited ∧
      (contextEvents cfg streamKey row a).jobContexts =
        (jobContextEvent cfg streamKey row a).jobContexts ∧
      (contextEvents cfg streamKey row a).templateContexts =
        (templateContextEvent cfg streamKey row a).templateContexts := by
  obtain ⟨htstore, htshares, htcredited, htjobs⟩ := reads_templateContextEvent cfg streamKey row a
  obtain ⟨hjstore, hjshares, hjcredited, hjtemplates⟩ :=
    reads_jobContextEvent cfg streamKey row (templateContextEvent cfg streamKey row a)
  refine ⟨hjstore.trans htstore, hjshares.trans htshares, hjcredited.trans htcredited,
    ?_, hjtemplates⟩
  unfold contextEvents jobContextEvent
  rw [htjobs]
  split
  · rfl
  · exact htjobs

/-- A row that is ignored changes nothing, and of the others a credited one keeps a share. -/
theorem handleEvent_eq (cfg : AuditSettings κ) (row : AuditRow) (session : ℕ) (a : Archive κ) :
    handleEvent cfg row session a = match observePosition row.row session a.store with
      | none => a
      | some observed =>
          let streamKey := a.store.streamKey row.row session
          let store := submissionEvent cfg.toSettings streamKey row.row observed
          let kept := match creditedRound cfg row.row store with
            | none => contextEvents cfg streamKey row a
            | some roundId => retainShare cfg streamKey row roundId
                (contextEvents cfg streamKey row a)
          { kept with store := acceptedShare cfg.toSettings streamKey row.row store } := rfl

/-- The row that a share is kept as. -/
def shareRow (cfg : AuditSettings κ) (streamKey : String) (row : AuditRow) (roundId : ℕ)
    (a : Archive κ) : ShareRow κ where
  share := ⟨⟨streamKey, row.row, roundId⟩, jobKey cfg streamKey row, templateKey cfg streamKey row⟩
  isBig := cfg.bigShareDifficulty ≤ row.row.shareDiff
  jobContextSnapshot := (a.jobContexts.find (jobKey cfg streamKey row)).map Context.context

/-- A share that was not kept before joins the table, and the keys of its contexts are looked at
with those of the evicted shares. -/
theorem retainShare_eq (roundId : ℕ) (h : Retains cfg.toSettings a)
    (hfresh : (streamKey, row.row.eventSeq) ∉ a.credited.map CreditedShare.eventKey) :
    retainShare cfg streamKey row roundId a =
      (let new := shareRow cfg streamKey row roundId a
      let left := retain cfg.roundTopLimit roundId (a.shares ++ [new])
      let out := evicted cfg.roundTopLimit roundId (a.shares ++ [new])
      { a with
        shares := left
        jobContexts := pruneJobContexts cfg (a.jobContexts.refresh
          (new.share.jobContextKey :: out.map fun x => x.share.jobContextKey)
          fun key => left.any fun x => x.share.jobContextKey = key)
        templateContexts := pruneTemplateContexts cfg (a.templateContexts.refresh
          (new.share.templateContextKey :: out.map fun x => x.share.templateContextKey)
          fun key => left.any fun x => x.share.templateContextKey = key)
        credited := a.credited ++ [new.share] }) := by
  have hnone : ¬ (a.shares.any fun x => x.share.eventKey =
      (⟨⟨streamKey, row.row, roundId⟩, jobKey cfg streamKey row,
        templateKey cfg streamKey row⟩ : CreditedShare κ).eventKey) = true := by
    intro hany
    obtain ⟨x, hx, hsame⟩ := List.any_eq_true.mp hany
    have hkey : x.share.eventKey = (streamKey, row.row.eventSeq) := of_decide_eq_true hsame
    exact hfresh (hkey ▸ List.mem_map_of_mem (h.rows x hx).1)
  unfold retainShare
  dsimp only
  rw [if_neg hnone]
  rfl

theorem extends_retainShare (roundId : ℕ) (h : Retains cfg.toSettings a)
    (hfresh : (streamKey, row.row.eventSeq) ∉ a.credited.map CreditedShare.eventKey) :
    Extends cfg (shareRow cfg streamKey row roundId a) a
      (retainShare cfg streamKey row roundId a) := by
  rw [retainShare_eq roundId h hfresh]
  refine ⟨hfresh, ?_, decide_eq_true_iff, rfl, rfl⟩
  have hlt := row.shareDiff_lt
  change row.row.shareDiff < 10 ^ 20
  omega

end Events

section Steps

omit [DecidableEq κ] in
theorem retains_start (cfg : AuditSettings κ) (runId : String) :
    Retains cfg.toSettings (start runId : Archive κ) where
  keys := List.nodup_nil
  bounded := fun _ hx => absurd hx List.not_mem_nil
  rows := fun _ hx => absurd hx List.not_mem_nil
  once := List.nodup_nil
  big := fun _ hx => absurd hx List.not_mem_nil
  needed := fun _ hx => absurd hx List.not_mem_nil
  top := fun _ => Selects.nil _ _

omit [DecidableEq κ] in
theorem Retains.congr {a' : Archive κ} (h : Retains cfg.toSettings a)
    (hshares : a'.shares = a.shares) (hcredited : a'.credited = a.credited) :
    Retains cfg.toSettings a' where
  keys := hcredited ▸ h.keys
  bounded := hcredited ▸ h.bounded
  rows := hshares ▸ hcredited ▸ h.rows
  once := hshares ▸ h.once
  big := hshares ▸ hcredited ▸ h.big
  needed := hshares ▸ h.needed
  top := by
    intro roundId
    rw [creditedIn, topIn, hshares, hcredited]
    exact h.top roundId

/-- What holds in every state, whatever the flags of the contexts are. -/
structure Sound (cfg : AuditSettings κ) (a : Archive κ) : Prop where
  linked : Linked a
  retains : Retains cfg.toSettings a
  jobContexts : a.jobContexts.Numbered
  templateContexts : a.templateContexts.Numbered

omit [DecidableEq κ] in
theorem sound_start (cfg : AuditSettings κ) (runId : String) :
    Sound cfg (start runId : Archive κ) where
  linked :=
    { store := credited_start runId
      credits := (credits_initializeStore runId ({} : Store κ)).symm }
  retains := retains_start cfg runId
  jobContexts := Contexts.numbered_empty
  templateContexts := Contexts.numbered_empty

theorem toStore_step (cfg : AuditSettings κ) (a : Archive κ) (input : Input) :
    (step cfg a input).store = SQLiteStore.step cfg.toSettings a.store input.toStore := by
  cases input with
  | event row session =>
      change (handleEvent cfg row session a).store =
        SQLiteStore.handleEvent cfg.toSettings row.row session a.store
      rw [handleEvent_eq, SQLiteStore.handleEvent]
      cases observePosition row.row session a.store with
      | none => rfl
      | some observed => rfl
  | incomplete => rfl
  | dropped => rfl
  | restart runId => rfl

variable {row : AuditRow} {session : ℕ}

theorem numbered_contextEvents (cfg : AuditSettings κ) (streamKey : String) (row : AuditRow)
    (hjobs : a.jobContexts.Numbered) (htemplates : a.templateContexts.Numbered) :
    (contextEvents cfg streamKey row a).jobContexts.Numbered ∧
      (contextEvents cfg streamKey row a).templateContexts.Numbered := by
  obtain ⟨-, -, -, hjobs', htemplates'⟩ := reads_contextEvents cfg streamKey row a
  rw [hjobs', htemplates']
  exact ⟨Contexts.numbered_written (written_jobContextEvent cfg streamKey row a) hjobs,
    Contexts.numbered_written (written_templateContextEvent cfg streamKey row a) htemplates⟩

omit [DecidableEq κ] in
/-- The position of a stream has passed every share that was credited. -/
theorem fresh_of_observePosition {observed : Store κ} (h : Linked a)
    (hobserve : observePosition row.row session a.store = some observed) :
    (a.store.streamKey row.row session, row.row.eventSeq) ∉ a.credited.map
      CreditedShare.eventKey := by
  obtain ⟨-, hnext⟩ := next_observePosition h.store hobserve
  intro hmem
  obtain ⟨x, hx, hkey⟩ := List.mem_map.mp hmem
  obtain ⟨hstream, hseq⟩ := Prod.mk.inj hkey
  have hcredit : x.credit ∈ observed.credits := by
    rw [credits_observePosition hobserve, ← h.credits]
    exact List.mem_map_of_mem hx
  have hlt := hnext.later x.credit hcredit hstream
  omega

theorem sound_handleEvent (h : Sound cfg a)
    (hstore : Credited (handleEvent cfg row session a).store) :
    Sound cfg (handleEvent cfg row session a) := by
  rw [handleEvent_eq] at hstore ⊢
  cases hobserve : observePosition row.row session a.store with
  | none => exact h
  | some observed =>
      rw [hobserve] at hstore
      dsimp only at hstore ⊢
      have hfresh := fresh_of_observePosition h.linked hobserve
      generalize a.store.streamKey row.row session = streamKey at hstore hfresh ⊢
      obtain ⟨-, hshares, hcredited, -, -⟩ := reads_contextEvents cfg streamKey row a
      obtain ⟨hjobs, htemplates⟩ := numbered_contextEvents cfg streamKey row h.jobContexts
        h.templateContexts
      have hretains := h.retains.congr hshares hcredited
      have hcredits := credits_acceptedShare_eq cfg streamKey row.row
        (submissionEvent cfg.toSettings streamKey row.row observed)
      rw [(reads_submissionEvent _ _ _ _).1, credits_observePosition hobserve, ← h.linked.credits,
        ← hcredited] at hcredits
      rw [← hcredited] at hfresh
      cases hround : creditedRound cfg row.row
          (submissionEvent cfg.toSettings streamKey row.row observed) with
      | none =>
          rw [hround, Option.map_none, Option.toList_none, List.append_nil] at hcredits
          exact ⟨⟨hstore, hcredits.symm⟩, hretains.congr rfl rfl, hjobs, htemplates⟩
      | some roundId =>
          rw [hround] at hcredits
          have hextends := extends_retainShare roundId hretains hfresh
          refine ⟨⟨hstore, ?_⟩, (hextends.retains hretains).congr rfl rfl, ?_, ?_⟩
          · apply (congrArg (List.map CreditedShare.credit) hextends.credited).trans
            rw [List.map_append, List.map_singleton]
            exact hcredits.symm
          · exact Contexts.numbered_prune (Contexts.numbered_refresh hjobs)
          · exact Contexts.numbered_prune (Contexts.numbered_refresh htemplates)

omit [DecidableEq κ] in
/-- Other inputs reach the store only. -/
theorem Sound.store {store : Store κ} (h : Sound cfg a) (hstore : Credited store)
    (hcredits : store.credits = a.store.credits) : Sound cfg { a with store } where
  linked := ⟨hstore, h.linked.credits.trans hcredits.symm⟩
  retains := h.retains.congr rfl rfl
  jobContexts := h.jobContexts
  templateContexts := h.templateContexts

theorem sound_step (h : Sound cfg a) (input : Input) : Sound cfg (step cfg a input) := by
  have hstore : Credited (step cfg a input).store := by
    rw [toStore_step]
    exact credited_step h.linked.store _
  cases input with
  | event row session => exact sound_handleEvent h hstore
  | incomplete => exact h.store hstore (reads_recoverClosingRound none _).1
  | dropped => exact h.store hstore rfl
  | restart runId => exact h.store hstore (credits_initializeStore runId a.store)

theorem run_append (inputs : List Input) (input : Input) (a : Archive κ) :
    run cfg (inputs ++ [input]) a = step cfg (run cfg inputs a) input := List.foldl_append

theorem sound_run (h : Sound cfg a) (inputs : List Input) : Sound cfg (run cfg inputs a) := by
  induction inputs generalizing a with
  | nil => exact h
  | cons input rest ih => exact ih (sound_step h input)

end Steps

section Flags

def RefersJob (a : Archive κ) (key : κ) : Prop := ∃ x ∈ a.shares, x.share.jobContextKey = key

def RefersTemplate (a : Archive κ) (key : κ) : Prop :=
  ∃ x ∈ a.shares, x.share.templateContextKey = key

/-- The contexts marked as retained are those that a kept share refers to. -/
structure Accurate (a : Archive κ) : Prop where
  jobContexts : a.jobContexts.Flagged a.RefersJob
  templateContexts : a.templateContexts.Flagged a.RefersTemplate

/-- A row that is not ignored, under the key of its stream. -/
def observedRow (a : Archive κ) : Input → Option (String × AuditRow)
  | .event row session =>
      (observePosition row.row session a.store).map fun _ =>
        (a.store.streamKey row.row session, row)
  | _ => none

def touchedJob (cfg : AuditSettings κ) (a : Archive κ) (input : Input) : Option κ :=
  (a.observedRow input).bind fun (streamKey, row) => writtenJob cfg streamKey row

def touchedTemplate (cfg : AuditSettings κ) (a : Archive κ) (input : Input) : Option κ :=
  (a.observedRow input).bind fun (streamKey, row) => writtenTemplate cfg streamKey row

/-- A context is opened before a kept share refers to it. -/
structure InTime (cfg : AuditSettings κ) (a : Archive κ) (input : Input) : Prop where
  jobContexts : ∀ key ∈ touchedJob cfg a input, a.jobContexts.Holds key ∨ ¬ a.RefersJob key
  templateContexts : ∀ key ∈ touchedTemplate cfg a input,
    a.templateContexts.Holds key ∨ ¬ a.RefersTemplate key

/-- A step deletes no context that a kept share refers to, be it an old one or the one it wrote. -/
structure KeepsContexts (cfg : AuditSettings κ) (a : Archive κ) (input : Input) : Prop where
  jobContexts : ∀ key, a.jobContexts.Holds key ∨ key ∈ touchedJob cfg a input →
    (step cfg a input).RefersJob key → (step cfg a input).jobContexts.Holds key
  templateContexts : ∀ key, a.templateContexts.Holds key ∨ key ∈ touchedTemplate cfg a input →
    (step cfg a input).RefersTemplate key → (step cfg a input).templateContexts.Holds key

omit [DecidableEq κ] in
/-- A credited share comes with no context. -/
theorem written_none_of_isAcceptedShare (cfg : AuditSettings κ)
    (streamKey : String) {row : AuditRow} (h : isAcceptedShare row.row = true) :
    writtenJob cfg streamKey row = none ∧ writtenTemplate cfg streamKey row = none := by
  have hevent : row.row.event ≠ .other := by
    intro hother
    rw [isAcceptedShare, hother] at h
    exact Bool.false_ne_true h
  have hcontext := row.context_other hevent
  constructor
  · rw [writtenJob, hcontext, if_neg]
    rintro ⟨hderived | hsent, -⟩
    · cases hderived
    · cases hsent
  · rw [writtenTemplate, hcontext, if_neg]
    rintro ⟨hcached, -⟩
    cases hcached

theorem isAcceptedShare_of_creditedRound {row : EventRow} {s : Store κ} {roundId : ℕ}
    (h : creditedRound cfg row s = some roundId) : isAcceptedShare row = true := by
  unfold creditedRound at h
  split at h
  · next haccepted => exact haccepted.1
  · cases h

omit [DecidableEq κ] in
/-- Only the new share and the evicted ones make a difference to what is referred to. -/
theorem refers_retain_iff (f : CreditedShare κ → κ) {shares : List (ShareRow κ)} {new : ShareRow κ}
    {limit roundId : ℕ} {key : κ}
    (hkey : key ∉ f new.share :: (evicted limit roundId (shares ++ [new])).map fun x => f x.share) :
    (∃ x ∈ retain limit roundId (shares ++ [new]), f x.share = key) ↔
      ∃ x ∈ shares, f x.share = key := by
  rw [List.mem_cons, not_or] at hkey
  obtain ⟨hnew, hevicted⟩ := hkey
  unfold evicted at hevicted
  unfold retain
  rw [markTop_eq] at hevicted ⊢
  constructor
  · rintro ⟨z, hz, rfl⟩
    obtain ⟨x, hx, rfl⟩ := List.mem_map.mp (List.mem_filter.mp hz).1
    rcases List.mem_append.mp hx with hx | hx
    · exact ⟨x, hx, rfl⟩
    · rw [List.mem_singleton.mp hx] at hnew
      exact absurd rfl hnew
  · rintro ⟨x, hx, rfl⟩
    have hmem := List.mem_map_of_mem
      (f := marked roundId (rankedKeys limit roundId (shares ++ [new])))
      (List.mem_append_left [new] hx)
    refine ⟨_, List.mem_filter.mpr ⟨hmem, ?_⟩, rfl⟩
    rw [Bool.not_eq_true']
    by_contra hnot
    rw [Bool.not_eq_false] at hnot
    exact hevicted (List.mem_map.mpr ⟨_, List.mem_filter.mpr ⟨hmem, hnot⟩, rfl⟩)

omit [DecidableEq κ] in
theorem accurate_start (runId : String) : Accurate (start runId : Archive κ) where
  jobContexts := Contexts.flagged_empty _
  templateContexts := Contexts.flagged_empty _

/-- A credited share sets right the flags that it makes a difference to. -/
theorem accurate_retainShare {streamKey : String} {row : AuditRow} (roundId : ℕ)
    (hretains : Retains cfg.toSettings a) (hjobs : a.jobContexts.Numbered)
    (htemplates : a.templateContexts.Numbered) (haccurate : Accurate a)
    (hfresh : (streamKey, row.row.eventSeq) ∉ a.credited.map CreditedShare.eventKey) :
    Accurate (retainShare cfg streamKey row roundId a) ∧
      (∀ key, a.jobContexts.Holds key → (retainShare cfg streamKey row roundId a).RefersJob key →
        (retainShare cfg streamKey row roundId a).jobContexts.Holds key) ∧
      ∀ key, a.templateContexts.Holds key →
        (retainShare cfg streamKey row roundId a).RefersTemplate key →
        (retainShare cfg streamKey row roundId a).templateContexts.Holds key := by
  rw [retainShare_eq roundId hretains hfresh]
  generalize shareRow cfg streamKey row roundId a = new
  have hafter (f : CreditedShare κ → κ) (key : κ) :
      ((retain cfg.roundTopLimit roundId (a.shares ++ [new])).any fun x => f x.share = key) = true ↔
        ∃ x ∈ retain cfg.roundTopLimit roundId (a.shares ++ [new]), f x.share = key := by
    simp only [List.any_eq_true, decide_eq_true_eq]
  obtain ⟨hjobFlags, hjobKept⟩ := Contexts.sound_refresh cfg.maxPendingJobContexts
    cfg.maxPendingJobContextBytes hjobs haccurate.jobContexts
    (hafter CreditedShare.jobContextKey)
    fun key hkey => refers_retain_iff CreditedShare.jobContextKey hkey
  obtain ⟨htemplateFlags, htemplateKept⟩ := Contexts.sound_refresh cfg.maxPendingTemplateContexts
    cfg.maxPendingTemplateContextBytes htemplates haccurate.templateContexts
    (hafter CreditedShare.templateContextKey)
    fun key hkey => refers_retain_iff CreditedShare.templateContextKey hkey
  exact ⟨⟨hjobFlags, htemplateFlags⟩, hjobKept, htemplateKept⟩

/-- The tables of the step, by another name. -/
theorem kept_iff {input : Input} (after : Archive κ)
    (hshares : (step cfg a input).shares = after.shares)
    (hjobs : (step cfg a input).jobContexts = after.jobContexts)
    (htemplates : (step cfg a input).templateContexts = after.templateContexts) :
    Accurate (step cfg a input) ∧ KeepsContexts cfg a input ↔ Accurate after ∧
      (∀ key, a.jobContexts.Holds key ∨ key ∈ touchedJob cfg a input → after.RefersJob key →
        after.jobContexts.Holds key) ∧
      ∀ key, a.templateContexts.Holds key ∨ key ∈ touchedTemplate cfg a input →
        after.RefersTemplate key → after.templateContexts.Holds key := by
  have hrefersJob : (step cfg a input).RefersJob = after.RefersJob := by
    unfold RefersJob
    rw [hshares]
  have hrefersTemplate : (step cfg a input).RefersTemplate = after.RefersTemplate := by
    unfold RefersTemplate
    rw [hshares]
  constructor
  · rintro ⟨⟨hjobFlags, htemplateFlags⟩, hjobKept, htemplateKept⟩
    rw [hrefersJob, hjobs] at hjobFlags hjobKept
    rw [hrefersTemplate, htemplates] at htemplateFlags htemplateKept
    exact ⟨⟨hjobFlags, htemplateFlags⟩, hjobKept, htemplateKept⟩
  · rintro ⟨⟨hjobFlags, htemplateFlags⟩, hjobKept, htemplateKept⟩
    rw [← hrefersJob, ← hjobs] at hjobFlags hjobKept
    rw [← hrefersTemplate, ← htemplates] at htemplateFlags htemplateKept
    exact ⟨⟨hjobFlags, htemplateFlags⟩, hjobKept, htemplateKept⟩

omit [DecidableEq κ] in
theorem inTime_iff {input : Input} : InTime cfg a input ↔
    (∀ key ∈ touchedJob cfg a input, a.jobContexts.Holds key ∨ ¬ a.RefersJob key) ∧
      ∀ key ∈ touchedTemplate cfg a input, a.templateContexts.Holds key ∨ ¬ a.RefersTemplate key :=
  ⟨fun h => ⟨h.jobContexts, h.templateContexts⟩, fun h => ⟨h.1, h.2⟩⟩

/-- An input that writes no context, and leaves the tables as they are. -/
theorem accurate_iff_of_unchanged {input : Input} (haccurate : Accurate a)
    (hshares : (step cfg a input).shares = a.shares)
    (hjobs : (step cfg a input).jobContexts = a.jobContexts)
    (htemplates : (step cfg a input).templateContexts = a.templateContexts)
    (hobserved : a.observedRow input = none) :
    Accurate (step cfg a input) ∧ KeepsContexts cfg a input ↔ InTime cfg a input := by
  have hjob : touchedJob cfg a input = none := by rw [touchedJob, hobserved, Option.bind_none]
  have htemplate : touchedTemplate cfg a input = none := by
    rw [touchedTemplate, hobserved, Option.bind_none]
  rw [kept_iff a hshares hjobs htemplates, inTime_iff, hjob, htemplate]
  constructor
  · intro _
    exact ⟨fun key hnone => (nomatch hnone), fun key hnone => (nomatch hnone)⟩
  · intro _
    refine ⟨haccurate, fun key hkey _ => ?_, fun key hkey _ => ?_⟩
    · exact hkey.resolve_right fun hnone => nomatch hnone
    · exact hkey.resolve_right fun hnone => nomatch hnone

/-- After a row that is not credited, the flags are right exactly when it came in time. -/
theorem accurate_contextEvents_iff (streamKey : String) (row : AuditRow)
    (h : Sound cfg a) (haccurate : Accurate a) :
    let after := contextEvents cfg streamKey row a
    (Accurate after ∧
      (∀ key, a.jobContexts.Holds key ∨ key ∈ writtenJob cfg streamKey row → after.RefersJob key →
        after.jobContexts.Holds key) ∧
      ∀ key, a.templateContexts.Holds key ∨ key ∈ writtenTemplate cfg streamKey row →
        after.RefersTemplate key → after.templateContexts.Holds key) ↔
      (∀ key ∈ writtenJob cfg streamKey row, a.jobContexts.Holds key ∨ ¬ a.RefersJob key) ∧
        ∀ key ∈ writtenTemplate cfg streamKey row,
          a.templateContexts.Holds key ∨ ¬ a.RefersTemplate key := by
  intro after
  obtain ⟨-, hshares, -, hjobs, htemplates⟩ := reads_contextEvents cfg streamKey row a
  have hrefersJob : after.RefersJob = a.RefersJob := by
    unfold RefersJob
    rw [hshares]
  have hrefersTemplate : after.RefersTemplate = a.RefersTemplate := by
    unfold RefersTemplate
    rw [hshares]
  have hjob := Contexts.sound_written (written_jobContextEvent cfg streamKey row a) h.jobContexts
    haccurate.jobContexts
  have htemplate := Contexts.sound_written (written_templateContextEvent cfg streamKey row a)
    h.templateContexts haccurate.templateContexts
  rw [← hjobs] at hjob
  rw [← htemplates] at htemplate
  rw [hrefersJob, hrefersTemplate, ← hjob, ← htemplate]
  constructor
  · rintro ⟨⟨hjobFlags, htemplateFlags⟩, hjobKept, htemplateKept⟩
    rw [hrefersJob] at hjobFlags
    rw [hrefersTemplate] at htemplateFlags
    exact ⟨⟨hjobFlags, hjobKept⟩, htemplateFlags, htemplateKept⟩
  · rintro ⟨⟨hjobFlags, hjobKept⟩, htemplateFlags, htemplateKept⟩
    refine ⟨⟨?_, ?_⟩, hjobKept, htemplateKept⟩
    · rw [hrefersJob]
      exact hjobFlags
    · rw [hrefersTemplate]
      exact htemplateFlags

/-- A credited row touches no context, and sets right what it makes a difference to. -/
theorem accurate_credited {streamKey : String} {row : AuditRow} (roundId : ℕ)
    (h : Sound cfg a) (haccurate : Accurate a) (hrow : isAcceptedShare row.row = true)
    (hfresh : (streamKey, row.row.eventSeq) ∉ a.credited.map CreditedShare.eventKey) :
    let kept := retainShare cfg streamKey row roundId (contextEvents cfg streamKey row a)
    Accurate kept ∧
      (∀ key, a.jobContexts.Holds key → kept.RefersJob key → kept.jobContexts.Holds key) ∧
      ∀ key, a.templateContexts.Holds key → kept.RefersTemplate key →
        kept.templateContexts.Holds key := by
  obtain ⟨-, hshares, hcredited, hjobs, htemplates⟩ := reads_contextEvents cfg streamKey row a
  obtain ⟨hjob, htemplate⟩ := written_none_of_isAcceptedShare cfg streamKey hrow
  have hjobSame := written_jobContextEvent cfg streamKey row a
  rw [hjob, ← hjobs] at hjobSame
  have htemplateSame := written_templateContextEvent cfg streamKey row a
  rw [htemplate, ← htemplates] at htemplateSame
  have hsame : Accurate (contextEvents cfg streamKey row a) := by
    constructor
    · unfold RefersJob
      rw [hshares, hjobSame]
      exact haccurate.jobContexts
    · unfold RefersTemplate
      rw [hshares, htemplateSame]
      exact haccurate.templateContexts
  rw [← hcredited] at hfresh
  have hnumbered := numbered_contextEvents cfg streamKey row h.jobContexts h.templateContexts
  have hkept := accurate_retainShare roundId (h.retains.congr hshares hcredited)
    hnumbered.1 hnumbered.2
    hsame hfresh
  rw [hjobSame, htemplateSame] at hkept
  exact hkept

theorem accurate_step_iff (h : Sound cfg a) (haccurate : Accurate a) (input : Input) :
    Accurate (step cfg a input) ∧ KeepsContexts cfg a input ↔ InTime cfg a input := by
  cases input with
  | event row session =>
      have hstep : step cfg a (.event row session) = handleEvent cfg row session a := rfl
      rw [handleEvent_eq] at hstep
      cases hobserve : observePosition row.row session a.store with
      | none =>
          rw [hobserve] at hstep
          refine accurate_iff_of_unchanged haccurate (congrArg Archive.shares hstep)
            (congrArg Archive.jobContexts hstep) (congrArg Archive.templateContexts hstep) ?_
          rw [observedRow, hobserve, Option.map_none]
      | some observed =>
          rw [hobserve] at hstep
          dsimp only at hstep
          have hfresh := fresh_of_observePosition h.linked hobserve
          have hjob : touchedJob cfg a (.event row session) =
              writtenJob cfg (a.store.streamKey row.row session) row := by
            rw [touchedJob, observedRow, hobserve]
            rfl
          have htemplate : touchedTemplate cfg a (.event row session) =
              writtenTemplate cfg (a.store.streamKey row.row session) row := by
            rw [touchedTemplate, observedRow, hobserve]
            rfl
          generalize a.store.streamKey row.row session = streamKey at hstep hfresh hjob htemplate
          cases hround : creditedRound cfg row.row
              (submissionEvent cfg.toSettings streamKey row.row observed) with
          | none =>
              rw [hround] at hstep
              rw [kept_iff (contextEvents cfg streamKey row a) (congrArg Archive.shares hstep :)
                (congrArg Archive.jobContexts hstep :) (congrArg Archive.templateContexts hstep :),
                inTime_iff, hjob, htemplate]
              exact accurate_contextEvents_iff streamKey row h haccurate
          | some roundId =>
              rw [hround] at hstep
              have hrow := isAcceptedShare_of_creditedRound hround
              obtain ⟨haccurate', hjobKept, htemplateKept⟩ :=
                accurate_credited roundId h haccurate hrow hfresh
              obtain ⟨hnoJob, hnoTemplate⟩ :=
                written_none_of_isAcceptedShare cfg streamKey hrow
              rw [kept_iff (retainShare cfg streamKey row roundId
                (contextEvents cfg streamKey row a)) (congrArg Archive.shares hstep :)
                (congrArg Archive.jobContexts hstep :)
                (congrArg Archive.templateContexts hstep :), inTime_iff, hjob, htemplate, hnoJob,
                hnoTemplate]
              constructor
              · intro _
                exact ⟨fun key hnone => (nomatch hnone), fun key hnone => (nomatch hnone)⟩
              · intro _
                refine ⟨haccurate', fun key hkey => hjobKept key ?_, fun key hkey =>
                  htemplateKept key ?_⟩
                · exact hkey.resolve_right fun hnone => nomatch hnone
                · exact hkey.resolve_right fun hnone => nomatch hnone
  | incomplete => exact accurate_iff_of_unchanged haccurate rfl rfl rfl rfl
  | dropped => exact accurate_iff_of_unchanged haccurate rfl rfl rfl rfl
  | restart runId => exact accurate_iff_of_unchanged haccurate rfl rfl rfl rfl

theorem accurate_run (cfg : AuditSettings κ) (runId : String) (inputs : List Input)
    (hinTime : ∀ prior input, prior ++ [input] <+: inputs →
      InTime cfg (run cfg prior (start runId)) input) :
    Accurate (run cfg inputs (start runId)) := by
  induction inputs using List.reverseRecOn with
  | nil => exact accurate_start runId
  | append_singleton inputs input ih =>
      have haccurate := ih fun prior input hprior =>
        hinTime prior input (hprior.trans (List.prefix_append _ _))
      rw [run_append]
      have hiff := accurate_step_iff (sound_run (sound_start cfg runId) inputs) haccurate input
      exact (hiff.mpr (hinTime inputs input (List.prefix_refl _))).1

/-- Whatever rows, losses and restarts the store meets: the shares kept of a round are those it
would keep if all that were credited to it were ranked at once. The contexts marked as retained are
those that kept shares refer to, and none of them is lost, in exactly the runs that open no context
when a kept share refers to it already. -/
theorem retained_shares (cfg : AuditSettings κ) (runId : String) (inputs : List Input) :
    ((run cfg inputs (start runId)).credited.map CreditedShare.credit =
        (run cfg inputs (start runId)).store.credits ∧
      ∀ roundId, Retained cfg.toSettings roundId (run cfg inputs (start runId))) ∧
    ((∀ prior input, prior ++ [input] <+: inputs →
        Accurate (run cfg (prior ++ [input]) (start runId)) ∧
          KeepsContexts cfg (run cfg prior (start runId)) input) ↔
      ∀ prior input, prior ++ [input] <+: inputs →
        InTime cfg (run cfg prior (start runId)) input) := by
  refine ⟨?_, ?_⟩
  · have h := sound_run (sound_start cfg runId) inputs
    exact ⟨h.linked.credits, h.retains.retained⟩
  · constructor
    · intro hright prior input hprior
      have haccurate : Accurate (run cfg prior (start runId)) := by
        induction prior using List.reverseRecOn with
        | nil => exact accurate_start runId
        | append_singleton before last _ =>
            exact (hright before last ((List.prefix_append _ _).trans hprior)).1
      have hiff := accurate_step_iff (sound_run (sound_start cfg runId) prior) haccurate input
      have hstep := hright prior input hprior
      rw [run_append] at hstep
      exact hiff.mp hstep
    · intro hinTime prior input hprior
      have haccurate := accurate_run cfg runId prior fun before last hbefore =>
        hinTime before last (hbefore.trans ((List.prefix_append _ _).trans hprior))
      have hiff := accurate_step_iff (sound_run (sound_start cfg runId) prior) haccurate input
      rw [run_append]
      exact hiff.mpr (hinTime prior input hprior)

end Flags

section LateContext

def lateSettings : AuditSettings (List String) where
  digest := fun texts => texts
  templateSize := fun _ => 100
  jobSize := fun _ => 100
  hex := fun key => String.intercalate "," key

def lateShare : AuditRow where
  row :=
    { event := .shareResult
      status := .acceptedLocal
      streamId := "s"
      eventSeq := 1
      sourceId := "0"
      templateId := "1"
      jobId := "j"
      shareId := "x"
      shareDiff := 2000
      minerTargetDiff := 1000
      networkTargetDiff := 5000 }
  minerId := "m"
  mapperId := "p"
  shareDiff_lt := by decide
  context_other := fun _ => rfl

def lateJob : AuditRow where
  row :=
    { event := .other
      streamId := "s"
      eventSeq := 2
      sourceId := "0"
      templateId := "1"
      jobId := "j" }
  context := .jobSent
  minerId := "m"
  mapperId := "p"
  shareDiff_lt := by decide
  context_other := fun h => absurd rfl h

/-- A share of a job is kept, and then the job is sent again. -/
def lateContext : List Input := [.event lateShare 1, .event lateJob 1]

/-- The context of the job is not marked as retained, though the kept share refers to it. -/
theorem lateContext_not_retained :
    let a := run lateSettings lateContext (start "run")
    (a.jobContexts.rows.map fun c => (c.correlationKey, c.retained)) =
        [(jobKey lateSettings "s" lateJob, false)] ∧
      a.RefersJob (jobKey lateSettings "s" lateJob) ∧ ¬ Accurate a := by
  intro a
  have hrows : (a.jobContexts.rows.map fun c => (c.correlationKey, c.retained)) =
      [(jobKey lateSettings "s" lateJob, false)] := by decide +kernel
  have hcredited : a.creditedIn 1 = [⟨⟨"s", lateShare.row, 1⟩, jobKey lateSettings "s" lateShare,
      templateKey lateSettings "s" lateShare⟩] := by decide +kernel
  have hrefers : a.RefersJob (jobKey lateSettings "s" lateJob) := by
    have htop := (sound_run (sound_start lateSettings "run") lateContext).retains.top 1
    change Selects _ _ (a.creditedIn 1) (a.topIn 1) at htop
    rw [hcredited] at htop
    have hall := htop.eq_all (by decide)
    obtain ⟨y, hy, hshare, -⟩ := mem_topIn_iff.mp ((hall _).mpr (List.mem_singleton_self _))
    refine ⟨y, hy, ?_⟩
    rw [hshare]
    decide +kernel
  refine ⟨hrows, hrefers, fun haccurate => ?_⟩
  have hmem : (jobKey lateSettings "s" lateJob, false) ∈
      a.jobContexts.rows.map fun c => (c.correlationKey, c.retained) := by
    rw [hrows]
    exact List.mem_singleton_self _
  obtain ⟨c, hc, heq⟩ := List.mem_map.mp hmem
  obtain ⟨hkey, hretained⟩ := Prod.mk.inj heq
  have hflag := (haccurate.jobContexts c hc).mpr (hkey ▸ hrefers)
  rw [hretained] at hflag
  exact Bool.false_ne_true hflag

end LateContext

end Archive

end SQLiteStore

end XmrigProxy
