import XmrigProxy.ShareArchive
import Mathlib.Data.List.Nodup

/-! A table of contexts whose flags say what is referred to. Pruning takes no flagged context, and a
flag goes wrong only with a context that is opened late, when it is referred to already. -/
namespace XmrigProxy

namespace SQLiteStore

namespace Contexts

variable {κ γ : Type} {t : Contexts κ γ}

/-- Rows have ids of their own. -/
structure Numbered (t : Contexts κ γ) : Prop where
  nodup : (t.rows.map Context.id).Nodup
  fresh : ∀ c ∈ t.rows, c.id < t.nextId

def Holds (t : Contexts κ γ) (key : κ) : Prop := ∃ c ∈ t.rows, c.correlationKey = key

def Flagged (refers : κ → Prop) (t : Contexts κ γ) : Prop :=
  ∀ c ∈ t.rows, c.retained = true ↔ refers c.correlationKey

theorem numbered_empty : Numbered ({} : Contexts κ γ) :=
  ⟨List.nodup_nil, fun _ hc => absurd hc List.not_mem_nil⟩

theorem flagged_empty (refers : κ → Prop) : Flagged refers ({} : Contexts κ γ) :=
  fun _ hc => absurd hc List.not_mem_nil

section Prune

variable {maxCount maxBytes : ℕ}

theorem rows_prune_sublist : (t.prune maxCount maxBytes).rows.Sublist t.rows := by
  unfold prune
  split
  · exact List.Sublist.refl _
  · exact List.filter_sublist

theorem nextId_prune : (t.prune maxCount maxBytes).nextId = t.nextId := by
  unfold prune
  split
  · rfl
  · rfl

theorem numbered_prune (h : Numbered t) : Numbered (t.prune maxCount maxBytes) where
  nodup := h.nodup.sublist (rows_prune_sublist.map Context.id)
  fresh := by
    intro c hc
    rw [nextId_prune]
    exact h.fresh c (rows_prune_sublist.subset hc)

theorem flagged_prune {refers : κ → Prop} (h : Flagged refers t) :
    Flagged refers (t.prune maxCount maxBytes) :=
  fun c hc => h c (rows_prune_sublist.subset hc)

/-- Only pending contexts are deleted, by ids that no other context has. -/
theorem mem_prune_of_retained (h : Numbered t) {c : Context κ γ} (hc : c ∈ t.rows)
    (hretained : c.retained = true) : c ∈ (t.prune maxCount maxBytes).rows := by
  unfold prune
  split
  · exact hc
  · refine List.mem_filter.mpr ⟨hc, decide_eq_true ?_⟩
    intro hdoomed
    obtain ⟨⟨⟨pending, bytes⟩, rn⟩, hentry, hid⟩ := List.mem_filterMap.mp hdoomed
    dsimp only at hid
    split at hid
    · have hzip := List.fst_mem_of_mem_zipIdx hentry
      have hnewest := (List.of_mem_zip hzip).1
      have hpending := List.mem_filter.mp (List.mem_reverse.mp hnewest)
      obtain rfl := List.inj_on_of_nodup_map h.nodup hpending.1 hc (Option.some.inj hid)
      rw [hretained] at hpending
      exact absurd hpending.2 Bool.false_ne_true
    · cases hid

theorem holds_prune (h : Numbered t) {refers : κ → Prop} (hflagged : Flagged refers t) {key : κ}
    (hholds : t.Holds key) (hrefers : refers key) : (t.prune maxCount maxBytes).Holds key := by
  obtain ⟨c, hc, rfl⟩ := hholds
  exact ⟨c, mem_prune_of_retained h hc ((hflagged c hc).mpr hrefers), rfl⟩

end Prune

variable [DecidableEq κ]

section Upsert

variable {key : κ} {updatedUtc : String} {sizeBytes : ℕ} {context : γ}

instance (t : Contexts κ γ) (key : κ) : Decidable (t.Holds key) :=
  inferInstanceAs (Decidable (∃ c ∈ t.rows, c.correlationKey = key))

theorem any_iff_holds : (t.rows.any fun c => c.correlationKey = key) = true ↔ t.Holds key := by
  simp only [List.any_eq_true, decide_eq_true_eq]
  rfl

theorem upsert_of_holds (h : t.Holds key) : t.upsert key updatedUtc sizeBytes context =
    { t with
      rows := t.rows.map fun c =>
        if c.correlationKey = key then
          { c with
            updatedUtc
            sizeBytes
            context }
        else c } := by
  rw [upsert, if_pos (any_iff_holds.mpr h)]

theorem upsert_of_not_holds (h : ¬ t.Holds key) : t.upsert key updatedUtc sizeBytes context =
    { rows := t.rows ++ [⟨t.nextId, key, updatedUtc, false, sizeBytes, context⟩]
      nextId := t.nextId + 1 } := by
  rw [upsert, if_neg (mt any_iff_holds.mp h)]

/-- A replaced context keeps its id, its key and its flag. -/
theorem mem_upsert_of_holds (h : t.Holds key) {c : Context κ γ}
    (hc : c ∈ (t.upsert key updatedUtc sizeBytes context).rows) :
    ∃ d ∈ t.rows, c.id = d.id ∧ c.correlationKey = d.correlationKey ∧ c.retained = d.retained := by
  rw [upsert_of_holds h] at hc
  obtain ⟨d, hd, rfl⟩ := List.mem_map.mp hc
  refine ⟨d, hd, ?_⟩
  split
  · exact ⟨rfl, rfl, rfl⟩
  · exact ⟨rfl, rfl, rfl⟩

theorem numbered_upsert (h : Numbered t) :
    Numbered (t.upsert key updatedUtc sizeBytes context) := by
  by_cases hholds : t.Holds key
  · have hfresh : ∀ c ∈ (t.upsert key updatedUtc sizeBytes context).rows, c.id < t.nextId := by
      intro c hc
      obtain ⟨d, hd, hid, -⟩ := mem_upsert_of_holds hholds hc
      exact hid ▸ h.fresh d hd
    rw [upsert_of_holds hholds] at hfresh ⊢
    refine ⟨?_, hfresh⟩
    dsimp only
    have hids : (Context.id ∘ fun c : Context κ γ => if c.correlationKey = key then
        { c with
          updatedUtc
          sizeBytes
          context }
        else c) = Context.id := by
      funext c
      rw [Function.comp_apply]
      split
      · rfl
      · rfl
    rw [List.map_map, hids]
    exact h.nodup
  · rw [upsert_of_not_holds hholds]
    constructor
    · dsimp only
      rw [List.map_append, List.map_singleton]
      apply h.nodup.append (List.nodup_singleton _)
      intro id hid hnew
      obtain ⟨c, hc, rfl⟩ := List.mem_map.mp hid
      exact absurd (List.mem_singleton.mp hnew) (h.fresh c hc).ne
    · intro c hc
      rcases List.mem_append.mp hc with hc | hc
      · exact Nat.lt_succ_of_lt (h.fresh c hc)
      · rw [List.mem_singleton.mp hc]
        exact Nat.lt_succ_self _

theorem holds_upsert {other : κ} : (t.upsert key updatedUtc sizeBytes context).Holds other ↔
    t.Holds other ∨ other = key := by
  by_cases hholds : t.Holds key
  · constructor
    · rintro ⟨c, hc, rfl⟩
      obtain ⟨d, hd, -, hkey, -⟩ := mem_upsert_of_holds hholds hc
      exact Or.inl ⟨d, hd, hkey.symm⟩
    · intro h
      obtain ⟨d, hd, rfl⟩ : t.Holds other := h.elim id fun heq => heq ▸ hholds
      rw [upsert_of_holds hholds]
      refine ⟨_, List.mem_map_of_mem hd, ?_⟩
      split
      · rfl
      · rfl
  · rw [upsert_of_not_holds hholds]
    constructor
    · rintro ⟨c, hc, rfl⟩
      rcases List.mem_append.mp hc with hc | hc
      · exact Or.inl ⟨c, hc, rfl⟩
      · rw [List.mem_singleton.mp hc]
        exact Or.inr rfl
    · rintro (⟨c, hc, rfl⟩ | rfl)
      · exact ⟨c, List.mem_append_left _ hc, rfl⟩
      · exact ⟨_, List.mem_append_right _ (List.mem_singleton_self _), rfl⟩

variable {refers : κ → Prop}

theorem flagged_upsert (h : Flagged refers t) (hlate : t.Holds key ∨ ¬ refers key) :
    Flagged refers (t.upsert key updatedUtc sizeBytes context) := by
  intro c hc
  by_cases hholds : t.Holds key
  · obtain ⟨d, hd, -, hkey, hretained⟩ := mem_upsert_of_holds hholds hc
    rw [hkey, hretained]
    exact h d hd
  · rw [upsert_of_not_holds hholds] at hc
    rcases List.mem_append.mp hc with hc | hc
    · exact h c hc
    · rw [List.mem_singleton.mp hc]
      exact ⟨fun hfalse => absurd hfalse Bool.false_ne_true,
        fun hrefers => absurd hrefers (hlate.resolve_left hholds)⟩

/-- The flags stay right, and no context that is referred to gets lost, exactly when the context is
not opened late. -/
theorem sound_upsert (key : κ) (updatedUtc : String) (sizeBytes : ℕ) (context : γ)
    (maxCount maxBytes : ℕ) (hnumbered : Numbered t) (hflagged : Flagged refers t) :
    (Flagged refers ((t.upsert key updatedUtc sizeBytes context).prune maxCount maxBytes) ∧
      ∀ other, t.Holds other ∨ other = key → refers other →
        ((t.upsert key updatedUtc sizeBytes context).prune maxCount maxBytes).Holds other) ↔
      (t.Holds key ∨ ¬ refers key) := by
  constructor
  · rintro ⟨hafter, hkept⟩
    by_contra hlate
    obtain ⟨hnot, hrefers⟩ := not_or.mp hlate
    rw [not_not] at hrefers
    obtain ⟨c, hc, hkey⟩ := hkept key (Or.inr rfl) hrefers
    have hmem := rows_prune_sublist.subset hc
    rw [upsert_of_not_holds hnot] at hmem
    rcases List.mem_append.mp hmem with hold | hnew
    · exact hnot ⟨c, hold, hkey⟩
    · have hretained := (hafter c hc).mpr (hkey ▸ hrefers)
      rw [List.mem_singleton.mp hnew] at hretained
      exact Bool.false_ne_true hretained
  · intro hlate
    have hupsert : Flagged refers (t.upsert key updatedUtc sizeBytes context) :=
      flagged_upsert hflagged hlate
    refine ⟨flagged_prune hupsert, fun other hother hrefers => ?_⟩
    exact holds_prune (numbered_upsert hnumbered) hupsert (holds_upsert.mpr hother) hrefers

/-- A row has written the context under a key, and what did not fit was pruned; or it wrote none. -/
def Written (maxCount maxBytes : ℕ) (t t' : Contexts κ γ) : Option κ → Prop
  | none => t' = t
  | some key => ∃ updatedUtc sizeBytes context,
      t' = (t.upsert key updatedUtc sizeBytes context).prune maxCount maxBytes

theorem numbered_written {t' : Contexts κ γ} {maxCount maxBytes : ℕ} {written : Option κ}
    (h : Written maxCount maxBytes t t' written) (hnumbered : Numbered t) : Numbered t' := by
  cases written with
  | none =>
      obtain rfl : t' = t := h
      exact hnumbered
  | some key =>
      obtain ⟨_, _, _, rfl⟩ := h
      exact numbered_prune (numbered_upsert hnumbered)

theorem sound_written {t' : Contexts κ γ} {maxCount maxBytes : ℕ} {written : Option κ}
    (h : Written maxCount maxBytes t t' written) (hnumbered : Numbered t)
    (hflagged : Flagged refers t) :
    (Flagged refers t' ∧
      ∀ other, t.Holds other ∨ other ∈ written → refers other → t'.Holds other) ↔
      ∀ key ∈ written, t.Holds key ∨ ¬ refers key := by
  cases written with
  | none =>
      obtain rfl : t' = t := h
      constructor
      · exact fun _ key hkey => nomatch hkey
      · intro _
        refine ⟨hflagged, fun other hother _ => ?_⟩
        exact hother.resolve_right fun hnone => nomatch hnone
  | some key =>
      obtain ⟨updatedUtc, sizeBytes, context, rfl⟩ := h
      have hiff := sound_upsert key updatedUtc sizeBytes context maxCount
        maxBytes hnumbered hflagged
      constructor
      · rintro ⟨hafter, hkept⟩ other hother
        obtain rfl := Option.mem_some.mp hother
        refine hiff.mp ⟨hafter, fun other hother => hkept other ?_⟩
        exact hother.imp_right fun heq => Option.mem_some.mpr heq.symm
      · intro hlate
        obtain ⟨hafter, hkept⟩ := hiff.mpr (hlate key (Option.mem_some_self key))
        refine ⟨hafter, fun other hother => hkept other ?_⟩
        exact hother.imp_right fun hmem => (Option.mem_some.mp hmem).symm

end Upsert

section Refresh

variable {keys : List κ} {refers : κ → Prop} {refersAfter : κ → Bool}

theorem numbered_refresh (h : Numbered t) : Numbered (t.refresh keys refersAfter) := by
  have hids : (Context.id ∘ fun c : Context κ γ =>
      if c.correlationKey ∈ keys then { c with retained := refersAfter c.correlationKey } else c) =
      Context.id := by
    funext c
    rw [Function.comp_apply]
    split
    · rfl
    · rfl
  constructor
  · rw [refresh]
    dsimp only
    rw [List.map_map, hids]
    exact h.nodup
  · intro c hc
    obtain ⟨d, hd, rfl⟩ := List.mem_map.mp hc
    have hid : ((Context.id ∘ fun c : Context κ γ => if c.correlationKey ∈ keys then
        { c with retained := refersAfter c.correlationKey } else c) d) < t.nextId := by
      rw [hids]
      exact h.fresh d hd
    exact hid

theorem holds_refresh {key : κ} : (t.refresh keys refersAfter).Holds key ↔ t.Holds key := by
  constructor
  · rintro ⟨c, hc, rfl⟩
    obtain ⟨d, hd, rfl⟩ := List.mem_map.mp hc
    refine ⟨d, hd, ?_⟩
    split
    · rfl
    · rfl
  · rintro ⟨d, hd, rfl⟩
    refine ⟨_, List.mem_map_of_mem hd, ?_⟩
    split
    · rfl
    · rfl

/-- It is enough to look at the keys for which references came or went. -/
theorem flagged_refresh (h : Flagged refers t)
    (hothers : ∀ key ∉ keys, refersAfter key = true ↔ refers key) :
    Flagged (fun key => refersAfter key = true) (t.refresh keys refersAfter) := by
  intro c hc
  obtain ⟨d, hd, rfl⟩ := List.mem_map.mp hc
  split
  · exact Iff.rfl
  · next hkey => exact (h d hd).trans (hothers _ hkey).symm

/-- Looking at those keys again and pruning after it keeps the flags right, and every context that
is referred to then. -/
theorem sound_refresh {refers' : κ → Prop} (maxCount maxBytes : ℕ) (hnumbered : Numbered t)
    (hflagged : Flagged refers t) (hafter : ∀ key, refersAfter key = true ↔ refers' key)
    (hothers : ∀ key ∉ keys, refers' key ↔ refers key) :
    Flagged refers' ((t.refresh keys refersAfter).prune maxCount maxBytes) ∧
      ∀ key, t.Holds key → refers' key →
        ((t.refresh keys refersAfter).prune maxCount maxBytes).Holds key := by
  have hrefreshed : Flagged refers' (t.refresh keys refersAfter) := by
    have hbool : Flagged (fun key => refersAfter key = true) (t.refresh keys refersAfter) :=
      flagged_refresh hflagged fun key hkey => (hafter key).trans (hothers key hkey)
    exact fun c hc => (hbool c hc).trans (hafter c.correlationKey)
  refine ⟨flagged_prune hrefreshed, fun key hholds hrefers => ?_⟩
  exact holds_prune (numbered_refresh hnumbered) hrefreshed (holds_refresh.mpr hholds) hrefers

end Refresh

end Contexts

end SQLiteStore

end XmrigProxy
