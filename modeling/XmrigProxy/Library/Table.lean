import Mathlib.Algebra.GroupWithZero.Nat
import Mathlib.Algebra.BigOperators.Group.Finset.Piecewise
import Mathlib.Algebra.Order.BigOperators.Group.Finset
import Mathlib.Order.Defs.LinearOrder
import Mathlib.Order.Basic
import Mathlib.Data.List.Basic
import Mathlib.Data.List.Pairwise
import Mathlib.Data.List.Perm.Basic
import Mathlib.Data.Nat.Notation
import Mathlib.Tactic.Common

/-!
# Ordered tables

A table is a strictly sorted association list: a value of an ordered associative
container whose iteration order is the key order. Sortedness is a field, so a key
never occurs twice and the operations need no well-formedness hypothesis. Counting
entries is done through the two permutation lemmas for insertion and erasure, and sums
over the values of two tables are compared key by key.
-/

namespace XmrigProxy

structure Table (κ ν : Type*) [LinearOrder κ] where
  entries : List (κ × ν)
  sorted : entries.Pairwise (fun a b => a.1 < b.1)

namespace Table

variable {κ ν ν' : Type*} [LinearOrder κ]

def empty : Table κ ν := ⟨[], List.Pairwise.nil⟩

instance : EmptyCollection (Table κ ν) := ⟨empty⟩
instance : Inhabited (Table κ ν) := ⟨empty⟩
instance [DecidableEq ν] : DecidableEq (Table κ ν) := fun a b =>
  decidable_of_iff (a.entries = b.entries) (by cases a; cases b; simp)

def lookupList (k : κ) : List (κ × ν) → Option ν
  | [] => none
  | (k', v) :: rest => if k' = k then some v else lookupList k rest

def insertList (k : κ) (v : ν) : List (κ × ν) → List (κ × ν)
  | [] => [(k, v)]
  | (k', v') :: rest =>
      if k < k' then (k, v) :: (k', v') :: rest
      else if k = k' then (k, v) :: rest
      else (k', v') :: insertList k v rest

theorem mem_insertList {k : κ} {v : ν} {a : κ × ν} {l : List (κ × ν)}
    (h : a ∈ insertList k v l) : a = (k, v) ∨ a ∈ l := by
  induction l with
  | nil => simpa [insertList] using h
  | cons hd tl ih =>
      obtain ⟨k', v'⟩ := hd
      rw [insertList] at h
      split_ifs at h with h1 h2
      · simpa using h
      · rcases List.mem_cons.mp h with h | h
        · exact Or.inl h
        · exact Or.inr (List.mem_cons_of_mem _ h)
      · rcases List.mem_cons.mp h with h | h
        · exact Or.inr (h ▸ List.mem_cons_self)
        · exact (ih h).imp_right (List.mem_cons_of_mem _)

theorem insertList_sorted (k : κ) (v : ν) {l : List (κ × ν)}
    (h : l.Pairwise fun a b => a.1 < b.1) :
    (insertList k v l).Pairwise fun a b => a.1 < b.1 := by
  induction l with
  | nil => simp [insertList]
  | cons hd tl ih =>
      obtain ⟨k', v'⟩ := hd
      obtain ⟨hhd, htl⟩ := List.pairwise_cons.mp h
      rw [insertList]
      split_ifs with h1 h2
      · exact List.pairwise_cons.mpr ⟨fun a ha => by
          rcases List.mem_cons.mp ha with rfl | ha
          · exact h1
          · exact h1.trans (hhd a ha), h⟩
      · subst h2
        exact List.pairwise_cons.mpr ⟨hhd, htl⟩
      · refine List.pairwise_cons.mpr ⟨fun a ha => ?_, ih htl⟩
        rcases mem_insertList ha with rfl | ha
        · exact lt_of_le_of_ne (not_lt.mp h1) (Ne.symm h2)
        · exact hhd a ha

def find (t : Table κ ν) (k : κ) : Option ν := lookupList k t.entries

def contains (t : Table κ ν) (k : κ) : Bool := (t.find k).isSome

def insert (t : Table κ ν) (k : κ) (v : ν) : Table κ ν :=
  ⟨insertList k v t.entries, insertList_sorted k v t.sorted⟩

def filter (t : Table κ ν) (p : κ → ν → Bool) : Table κ ν :=
  ⟨t.entries.filter fun e => p e.1 e.2, t.sorted.filter _⟩

def erase (t : Table κ ν) (k : κ) : Table κ ν := t.filter fun k' _ => k' ≠ k

def map (t : Table κ ν) (f : κ → ν → ν') : Table κ ν' :=
  ⟨t.entries.map fun e => (e.1, f e.1 e.2),
    List.pairwise_map.mpr (t.sorted.imp fun h => h)⟩

/-- Rewrites the value under one key, when there is one. -/
def modify (t : Table κ ν) (k : κ) (f : ν → ν) : Table κ ν :=
  t.map fun k' v => if k' = k then f v else v

def keys (t : Table κ ν) : List κ := t.entries.map Prod.fst

def size (t : Table κ ν) : ℕ := t.entries.length

def count (t : Table κ ν) (p : κ → ν → Bool) : ℕ := t.entries.countP fun e => p e.1 e.2

section Lists

theorem lookupList_eq_none {k : κ} {l : List (κ × ν)} :
    lookupList k l = none ↔ ∀ e ∈ l, e.1 ≠ k := by
  induction l with
  | nil => simp [lookupList]
  | cons hd tl ih =>
      obtain ⟨k', v'⟩ := hd
      by_cases h : k' = k
      · simp [lookupList, h]
      · simp only [lookupList, h, if_false, ih, List.mem_cons, forall_eq_or_imp]
        exact ⟨fun hh => ⟨h, hh⟩, fun hh => hh.2⟩

theorem lookupList_eq_some {k : κ} {v : ν} {l : List (κ × ν)}
    (hl : l.Pairwise fun a b => a.1 < b.1) :
    lookupList k l = some v ↔ (k, v) ∈ l := by
  induction l with
  | nil => simp [lookupList]
  | cons hd tl ih =>
      obtain ⟨k', v'⟩ := hd
      obtain ⟨hhd, htl⟩ := List.pairwise_cons.mp hl
      by_cases h : k' = k
      · subst h
        simp only [lookupList, if_true, Option.some.injEq, List.mem_cons, Prod.mk.injEq,
          true_and]
        constructor
        · intro hv; exact Or.inl hv.symm
        · rintro (hv | hmem)
          · exact hv.symm
          · exact absurd (hhd _ hmem) (lt_irrefl _)
      · simp only [lookupList, h, if_false, ih htl, List.mem_cons, Prod.mk.injEq]
        constructor
        · exact Or.inr
        · rintro (⟨rfl, -⟩ | hmem)
          · exact absurd rfl h
          · exact hmem

theorem lookupList_insertList (k k' : κ) (v : ν) (l : List (κ × ν)) :
    lookupList k' (insertList k v l) = if k' = k then some v else lookupList k' l := by
  induction l with
  | nil => simp [insertList, lookupList, eq_comm]
  | cons hd tl ih =>
      obtain ⟨k₀, v₀⟩ := hd
      by_cases h1 : k < k₀
      · by_cases h2 : k' = k
        · subst h2
          simp [insertList, lookupList, h1]
        · simp [insertList, lookupList, h1, h2, Ne.symm h2]
      by_cases h2 : k = k₀
      · subst h2
        by_cases h3 : k' = k
        · subst h3
          simp [insertList, lookupList]
        · simp [insertList, lookupList, h3, Ne.symm h3]
      by_cases h3 : k₀ = k'
      · subst h3
        simp [insertList, lookupList, h1, h2, Ne.symm h2]
      · simp [insertList, lookupList, h1, h2, h3, ih]

theorem perm_insertList {k : κ} {v : ν} {l : List (κ × ν)} (h : lookupList k l = none) :
    (insertList k v l).Perm ((k, v) :: l) := by
  induction l with
  | nil => exact List.Perm.refl _
  | cons hd tl ih =>
      obtain ⟨k', v'⟩ := hd
      have hne := lookupList_eq_none.mp h
      have hk : k' ≠ k := hne (k', v') List.mem_cons_self
      have htl : lookupList k tl = none :=
        lookupList_eq_none.mpr fun e he => hne e (List.mem_cons_of_mem _ he)
      rw [insertList]
      split_ifs with h1 h2
      · exact List.Perm.refl _
      · exact absurd h2.symm hk
      · exact ((ih htl).cons _).trans (List.Perm.swap _ _ _)

theorem perm_filter_ne {k : κ} {v : ν} {l : List (κ × ν)}
    (hl : l.Pairwise fun a b => a.1 < b.1) (h : lookupList k l = some v) :
    l.Perm ((k, v) :: l.filter fun e => e.1 ≠ k) := by
  induction l with
  | nil => simp [lookupList] at h
  | cons hd tl ih =>
      obtain ⟨k', v'⟩ := hd
      obtain ⟨hhd, htl⟩ := List.pairwise_cons.mp hl
      by_cases hk : k' = k
      · subst hk
        have hv : v' = v := by simpa [lookupList] using h
        subst hv
        have hall : (tl.filter fun e => e.1 ≠ k') = tl :=
          List.filter_eq_self.mpr fun e he => by simpa using (hhd e he).ne'
        rw [List.filter_cons_of_neg (by simp), hall]
      · have h' : lookupList k tl = some v := by simpa [lookupList, hk] using h
        rw [List.filter_cons_of_pos (by simpa using hk)]
        exact ((ih htl h').cons _).trans (List.Perm.swap _ _ _)

end Lists

section Lookup

variable (t : Table κ ν)

theorem mem_entries {k : κ} {v : ν} : (k, v) ∈ t.entries ↔ t.find k = some v :=
  (lookupList_eq_some t.sorted).symm

theorem find_eq_none {k : κ} : t.find k = none ↔ ∀ v, (k, v) ∉ t.entries := by
  refine lookupList_eq_none.trans ⟨fun h v hv => h _ hv rfl, fun h e he hk => ?_⟩
  obtain ⟨k', v⟩ := e
  exact h v (hk ▸ he)

@[simp] theorem find_empty (k : κ) : (∅ : Table κ ν).find k = none := rfl

theorem find_insert (k k' : κ) (v : ν) :
    (t.insert k v).find k' = if k' = k then some v else t.find k' :=
  lookupList_insertList k k' v t.entries

@[simp] theorem find_insert_self (k : κ) (v : ν) : (t.insert k v).find k = some v := by
  simp [find_insert]

theorem find_insert_of_ne {k k' : κ} (h : k' ≠ k) (v : ν) :
    (t.insert k v).find k' = t.find k' := by
  simp [find_insert, h]

theorem insert_eq_self {k : κ} {v : ν} (h : t.find k = some v) : t.insert k v = t := by
  have hlist : ∀ l : List (κ × ν), l.Pairwise (fun a b => a.1 < b.1) →
      lookupList k l = some v → insertList k v l = l := by
    intro l hl hlookup
    induction l with
    | nil => cases hlookup
    | cons hd tl ih =>
        obtain ⟨k', v'⟩ := hd
        obtain ⟨hhd, htl⟩ := List.pairwise_cons.mp hl
        rw [lookupList] at hlookup
        rw [insertList]
        by_cases hk : k' = k
        · subst hk
          rw [if_pos rfl] at hlookup
          rw [if_neg (lt_irrefl _), if_pos rfl, Option.some.inj hlookup]
        · rw [if_neg hk] at hlookup
          have hlt : k' < k := hhd (k, v) ((lookupList_eq_some htl).mp hlookup)
          rw [if_neg (not_lt.mpr hlt.le), if_neg (Ne.symm hk), ih htl hlookup]
  cases t with
  | mk entries sorted =>
      have := hlist entries sorted h
      simp only [insert, this]

theorem find_filter (p : κ → ν → Bool) (k : κ) :
    (t.filter p).find k = (t.find k).filter (p k) := by
  cases h : t.find k with
  | none =>
      rw [Option.filter_none, find_eq_none]
      intro v hv
      exact (t.find_eq_none.mp h) v (List.mem_of_mem_filter hv)
  | some v =>
      cases hp : p k v with
      | true =>
          rw [Option.filter_some_pos hp, ← mem_entries]
          exact List.mem_filter.mpr ⟨t.mem_entries.mpr h, hp⟩
      | false =>
          rw [Option.filter_some_neg (by simp [hp]), find_eq_none]
          intro w hw
          obtain ⟨hmem, hpw⟩ := List.mem_filter.mp hw
          have hwv : w = v := Option.some.inj ((t.mem_entries.mp hmem).symm.trans h)
          rw [hwv] at hpw
          exact absurd hpw (by simp [hp])

theorem find_erase (k k' : κ) :
    (t.erase k).find k' = if k' = k then none else t.find k' := by
  rw [erase, find_filter]
  by_cases h : k' = k
  · subst h
    cases t.find k' <;> simp
  · cases hf : t.find k' <;> simp [h]

@[simp] theorem find_erase_self (k : κ) : (t.erase k).find k = none := by
  simp [find_erase]

theorem find_erase_of_ne {k k' : κ} (h : k' ≠ k) : (t.erase k).find k' = t.find k' := by
  simp [find_erase, h]

theorem erase_eq_self {k : κ} (h : t.find k = none) : t.erase k = t := by
  have hall : (t.entries.filter fun e => e.1 ≠ k) = t.entries := by
    rw [List.filter_eq_self]
    rintro ⟨k', v⟩ hmem
    have hne : k' ≠ k := fun hk => t.find_eq_none.mp h v (hk ▸ hmem)
    simpa using hne
  obtain ⟨entries, sorted⟩ := t
  simpa [erase, filter] using hall

theorem find_map (f : κ → ν → ν') (k : κ) : (t.map f).find k = (t.find k).map (f k) := by
  cases h : t.find k with
  | none =>
      rw [Option.map_none, find_eq_none]
      rintro v hv
      obtain ⟨⟨k', w⟩, hmem, heq⟩ := List.mem_map.mp hv
      obtain ⟨rfl, -⟩ := Prod.mk.inj heq
      exact t.find_eq_none.mp h w hmem
  | some v =>
      rw [Option.map_some, ← mem_entries]
      exact List.mem_map.mpr ⟨(k, v), t.mem_entries.mpr h, rfl⟩

theorem find_modify (k k' : κ) (f : ν → ν) :
    (t.modify k f).find k' = if k' = k then (t.find k').map f else t.find k' := by
  rw [modify, find_map]
  by_cases h : k' = k
  · simp [h]
  · cases t.find k' <;> simp [h]

theorem contains_iff {k : κ} : t.contains k = true ↔ ∃ v, t.find k = some v := by
  rw [contains, Option.isSome_iff_exists]

theorem mem_keys {k : κ} : k ∈ t.keys ↔ ∃ v, t.find k = some v := by
  constructor
  · intro h
    obtain ⟨⟨k', v⟩, hmem, rfl⟩ := List.mem_map.mp h
    exact ⟨v, t.mem_entries.mp hmem⟩
  · rintro ⟨v, hv⟩
    exact List.mem_map.mpr ⟨(k, v), t.mem_entries.mpr hv, rfl⟩

theorem keys_nodup : t.keys.Nodup :=
  List.pairwise_map.mpr (t.sorted.imp fun h => h.ne)

end Lookup

section Counting

variable (t : Table κ ν) (p : κ → ν → Bool)

@[simp] theorem size_empty : (∅ : Table κ ν).size = 0 := rfl

@[simp] theorem count_empty : (∅ : Table κ ν).count p = 0 := rfl

theorem perm_insert {k : κ} {v : ν} (h : t.find k = none) :
    (t.insert k v).entries.Perm ((k, v) :: t.entries) :=
  perm_insertList h

theorem perm_erase {k : κ} {v : ν} (h : t.find k = some v) :
    t.entries.Perm ((k, v) :: (t.erase k).entries) := by
  have := perm_filter_ne t.sorted h
  simpa [erase, filter] using this

theorem size_insert_of_fresh {k : κ} {v : ν} (h : t.find k = none) :
    (t.insert k v).size = t.size + 1 := by
  simpa [size] using (t.perm_insert (v := v) h).length_eq

theorem count_insert_of_fresh {k : κ} {v : ν} (h : t.find k = none) :
    (t.insert k v).count p = t.count p + (if p k v then 1 else 0) := by
  rw [count, (t.perm_insert (v := v) h).countP_eq, List.countP_cons, count]

theorem size_erase {k : κ} {v : ν} (h : t.find k = some v) :
    t.size = (t.erase k).size + 1 := by
  simpa [size] using (t.perm_erase h).length_eq

theorem count_erase {k : κ} {v : ν} (h : t.find k = some v) :
    t.count p = (t.erase k).count p + (if p k v then 1 else 0) := by
  rw [count, (t.perm_erase h).countP_eq, List.countP_cons, count]

theorem size_filter_le (q : κ → ν → Bool) : (t.filter q).size ≤ t.size :=
  List.length_filter_le _ _

theorem count_eq_zero : t.count p = 0 ↔ ∀ k v, t.find k = some v → p k v = false := by
  rw [count, List.countP_eq_zero]
  constructor
  · intro h k v hv
    simpa using h (k, v) (t.mem_entries.mpr hv)
  · rintro h ⟨k, v⟩ hmem
    simpa using h k v (t.mem_entries.mp hmem)

theorem count_filter (q : κ → ν → Bool) :
    (t.filter q).count p = t.count fun k v => p k v && q k v := by
  rw [count, filter, List.countP_filter, count]

theorem count_split (q : κ → ν → Bool) :
    t.count p = (t.filter q).count p + (t.filter fun k v => !q k v).count p :=
  List.countP_eq_countP_filter_add _ _ _

end Counting

section Totals

variable (t : Table κ ν) (f : ν → ℕ)

def total : ℕ := (t.entries.map fun e => f e.2).sum

/-- What one key contributes to a total. -/
def weight (k : κ) : ℕ := ((t.find k).map f).getD 0

theorem total_eq_sum {keys : Finset κ} (h : ∀ k ∈ t.keys, k ∈ keys) :
    t.total f = ∑ k ∈ keys, t.weight f k := by
  have hlist : t.total f = (t.keys.map (t.weight f)).sum := by
    rw [total, Table.keys, List.map_map]
    congr 1
    apply List.map_congr_left
    rintro ⟨k, v⟩ hmem
    simp [weight, t.mem_entries.mp hmem]
  rw [hlist, ← List.sum_toFinset _ t.keys_nodup]
  apply Finset.sum_subset
  · intro k hk
    exact h k (List.mem_toFinset.mp hk)
  · intro k _ hk
    have hnone : t.find k = none := by
      by_contra hfind
      obtain ⟨v, hv⟩ := Option.ne_none_iff_exists'.mp hfind
      exact hk (List.mem_toFinset.mpr (t.mem_keys.mpr ⟨v, hv⟩))
    simp [weight, hnone]

/-- A total grows by no more than what one key gains when no other key gains anything. -/
theorem total_le_add {t t' : Table κ ν} {f : ν → ℕ} (k : κ) (gain : ℕ)
    (h : ∀ k', t'.weight f k' ≤ t.weight f k' + if k' = k then gain else 0) :
    t'.total f ≤ t.total f + gain := by
  let keys := t.keys.toFinset ∪ t'.keys.toFinset
  have ht : t.total f = ∑ k ∈ keys, t.weight f k :=
    t.total_eq_sum f fun k hk => by simp [keys, hk]
  have ht' : t'.total f = ∑ k ∈ keys, t'.weight f k :=
    t'.total_eq_sum f fun k hk => by simp [keys, hk]
  calc t'.total f
      ≤ ∑ k' ∈ keys, (t.weight f k' + if k' = k then gain else 0) := by
        rw [ht']
        exact Finset.sum_le_sum fun k' _ => h k'
    _ ≤ t.total f + gain := by
        rw [Finset.sum_add_distrib, ← ht, Finset.sum_ite_eq']
        split <;> omega

theorem total_le {t t' : Table κ ν} {f : ν → ℕ}
    (h : ∀ k, t'.weight f k ≤ t.weight f k) : t'.total f ≤ t.total f := by
  cases hkeys : t'.keys with
  | nil =>
      have hempty : t'.entries = [] := List.map_eq_nil_iff.mp hkeys
      simp [total, hempty]
  | cons k rest => simpa using total_le_add (t := t) k 0 fun k' => by simpa using h k'

theorem size_eq_total : t.size = t.total fun _ => 1 := by
  simp [size, total]

theorem size_le_of_contains {t t' : Table κ ν} (h : ∀ k, t'.contains k → t.contains k) :
    t'.size ≤ t.size := by
  rw [size_eq_total, size_eq_total]
  apply total_le
  intro k
  have hk := h k
  simp only [contains] at hk
  cases ht' : t'.find k with
  | none => simp [weight, ht']
  | some v =>
      obtain ⟨w, hw⟩ := Option.isSome_iff_exists.mp (hk (by simp [ht']))
      simp [weight, ht', hw]

end Totals

end Table

end XmrigProxy
