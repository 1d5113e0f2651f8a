import Mathlib.Data.List.Dedup
import Mathlib.Data.List.DropRight
import Mathlib.Data.List.Nodup

/-!
# Tables that forget what was not used for long

A table of bounded size forgets the key whose last use is the oldest. Its keys are then the ones
used last, whatever came before them: a key is still there if and only if fewer others than there is
room for were used since. The value of a key that was never forgotten is the one that all its uses
made.
-/

namespace XmrigProxy.Lru

theorem mem_rtake {κ : Type*} {key : κ} {n : ℕ} {older newer : List κ}
    (hnodup : (older ++ key :: newer).Nodup) :
    key ∈ (older ++ key :: newer).rtake n ↔ newer.length < n := by
  have hnewer : key ∉ newer := (List.nodup_cons.mp (List.nodup_append.mp hnodup).2.1).1
  rw [List.rtake, List.length_append, List.length_cons]
  constructor
  · intro hmem
    by_contra hfew
    rw [List.drop_append, List.drop_of_length_le (by omega), List.nil_append] at hmem
    obtain ⟨i, hi⟩ : ∃ i, older.length + (newer.length + 1) - n - older.length = i + 1 :=
      ⟨newer.length - n, by omega⟩
    rw [hi, List.drop_succ_cons] at hmem
    exact hnewer (List.mem_of_mem_drop hmem)
  · intro hfew
    rw [List.drop_append_of_le_length (by omega)]
    exact List.mem_append_right _ List.mem_cons_self

theorem rtake_append {κ : Type*} {n : ℕ} (older : List κ) {newer : List κ}
    (hlength : n ≤ newer.length) : (older ++ newer).rtake n = newer.rtake n := by
  rw [List.rtake, List.rtake, List.length_append, List.drop_append,
    List.drop_of_length_le (by omega), List.nil_append]
  congr 1
  omega

/-- What was forgotten would not have been among the last ones anyway. -/
theorem rtake_rtake_concat {α : Type*} (n : ℕ) (l : List α) (x : α) :
    (l.rtake n ++ [x]).rtake n = (l ++ [x]).rtake n := by
  cases n with
  | zero => rw [List.rtake_zero, List.rtake_zero]
  | succ n =>
      rw [List.rtake_concat_succ, List.rtake_concat_succ]
      congr 1
      by_cases hshort : l.length ≤ n
      · rw [List.rtake, List.rtake, List.rtake, Nat.sub_eq_zero_of_le (m := n + 1) (by omega),
          List.drop_zero]
      · have hl : l.rdrop (n + 1) ++ l.rtake (n + 1) = l := List.take_append_drop _ _
        conv_rhs => rw [← hl]
        rw [rtake_append]
        rw [List.rtake, List.length_drop]
        omega

/-- Between two occurrences of a key, there are at least `n` others. -/
def Spaced {κ : Type*} (n : ℕ) (keys : List κ) : Prop :=
  ∀ (i j : ℕ) key, i < j → keys[i]? = some key → keys[j]? = some key → i + n < j

theorem spaced_nil {κ : Type*} (n : ℕ) : Spaced n ([] : List κ) := by
  intro i j key _ hi
  simp at hi

/-- A key that is not among the last `n` may follow. -/
theorem Spaced.concat {κ : Type*} {n : ℕ} {keys : List κ} (h : Spaced n keys) {key : κ}
    (hnew : key ∉ keys.rtake n) : Spaced n (keys ++ [key]) := by
  intro i j other hij hi hj
  rw [List.getElem?_append] at hi hj
  split at hj
  · rw [if_pos (by omega)] at hi
    exact h i j other hij hi hj
  · obtain ⟨hlast, rfl⟩ := List.getElem?_eq_some_iff.mp hj
    rw [List.length_singleton] at hlast
    rw [if_pos (by omega), List.getElem_singleton] at hi
    by_contra hlate
    apply hnew
    rw [List.rtake]
    refine List.mem_of_getElem? (i := i - (keys.length - n)) ?_
    rw [List.getElem?_drop, ← hi]
    congr 1
    omega

variable {κ β : Type*} [DecidableEq κ]

/-- The key is the one used last. -/
def promote (keys : List κ) (key : κ) : List κ := keys.filter (· ≠ key) ++ [key]

/-- The keys in the order of their last use. -/
def order (uses : List κ) : List κ := uses.foldl promote []

section Order

variable {keys : List κ} {key : κ} {uses : List κ}

theorem mem_promote {other : κ} : other ∈ promote keys key ↔ other ∈ keys ∨ other = key := by
  by_cases hother : other = key <;> simp [promote, hother]

theorem promote_nodup (h : keys.Nodup) : (promote keys key).Nodup := by
  refine List.nodup_append.mpr ⟨h.filter _, List.nodup_singleton key, ?_⟩
  intro other hother last hlast heq
  rw [List.mem_singleton.mp hlast] at heq
  subst heq
  simp at hother

theorem order_concat (uses : List κ) (key : κ) :
    order (uses ++ [key]) = promote (order uses) key := by
  rw [order, List.foldl_append]
  rfl

theorem order_nodup (uses : List κ) : (order uses).Nodup := by
  induction uses using List.reverseRecOn with
  | nil => exact List.nodup_nil
  | append_singleton uses key ih =>
      rw [order_concat]
      exact promote_nodup ih

@[simp] theorem mem_order : key ∈ order uses ↔ key ∈ uses := by
  induction uses using List.reverseRecOn with
  | nil => exact Iff.rfl
  | append_singleton uses other ih =>
      rw [order_concat, mem_promote, ih, List.mem_append, List.mem_singleton]

theorem length_order (uses : List κ) : (order uses).length = uses.dedup.length :=
  ((List.perm_ext_iff_of_nodup (order_nodup uses) (List.nodup_dedup uses)).mpr
    fun _ => by rw [mem_order, List.mem_dedup]).length_eq

/-- What is used later comes last. -/
theorem order_append (uses later : List κ) :
    order (uses ++ later) = (order uses).filter (· ∉ later) ++ order later := by
  induction later using List.reverseRecOn with
  | nil => simp [order]
  | append_singleton later key ih =>
      rw [← List.append_assoc, order_concat, ih, order_concat, promote, promote, List.filter_append,
        List.filter_filter, List.append_assoc]
      congr 2
      funext other
      by_cases hother : other = key <;> simp [hother]

/-- A key is among the last `n` if and only if fewer others were used since. -/
theorem mem_rtake_order {n : ℕ} {before after : List κ} (hafter : key ∉ after) :
    key ∈ (order (before ++ key :: after)).rtake n ↔ after.dedup.length < n := by
  obtain ⟨older, horder⟩ : ∃ older, order (before ++ key :: after) =
      older ++ key :: order after := by
    refine ⟨((order before).filter (· ≠ key)).filter (· ∉ after), ?_⟩
    rw [← List.singleton_append, ← List.append_assoc, order_append, order_concat, promote,
      List.filter_append, List.append_assoc]
    congr 1
    simp [hafter]
  have hnodup := order_nodup (before ++ key :: after)
  rw [horder] at hnodup ⊢
  rw [mem_rtake hnodup, length_order]

/-- Keys that were forgotten would not have been among the last ones anyway. -/
theorem promote_rtake (hnodup : keys.Nodup) (n : ℕ) :
    (promote (keys.rtake n) key).rtake n = (promote keys key).rtake n := by
  by_cases hshort : keys.length ≤ n
  · have hall : keys.rtake n = keys := by
      rw [List.rtake, Nat.sub_eq_zero_of_le hshort, List.drop_zero]
    rw [hall]
  · cases n with
    | zero => rw [List.rtake_zero, List.rtake_zero]
    | succ n =>
        rw [promote, promote, List.rtake_concat_succ, List.rtake_concat_succ]
        congr 1
        have hkeys : keys.rdrop (n + 1) ++ keys.rtake (n + 1) = keys := List.take_append_drop _ _
        have hkept : (keys.rtake (n + 1)).Nodup := hnodup.sublist (List.drop_sublist _ _)
        -- At most one of the keys that are left is the one that is promoted.
        have hlength : n ≤ ((keys.rtake (n + 1)).filter (· ≠ key)).length := by
          have herase := List.le_length_erase (a := key) (l := keys.rtake (n + 1))
          have hsize : (keys.rtake (n + 1)).length = n + 1 := by
            rw [List.rtake, List.length_drop]
            omega
          have hfilter : (keys.rtake (n + 1)).erase key =
              (keys.rtake (n + 1)).filter (· ≠ key) := by
            rw [hkept.erase_eq_filter]
            exact List.filter_congr fun other _ => by simp [bne, beq_eq_decide]
          rw [← hfilter]
          omega
        conv_rhs => rw [← hkeys, List.filter_append]
        rw [rtake_append _ hlength]

end Order

/-- A key that is used gets a new value; the table is left with its last entries. -/
def lookup (key : κ) (entries : List (κ × β)) : Option β :=
  (entries.find? fun entry => entry.1 = key).map Prod.snd

def use (limit : ℕ) (entries : List (κ × β)) (change : κ × (Option β → β)) : List (κ × β) :=
  (entries.filter (fun entry => entry.1 ≠ change.1) ++
    [(change.1, change.2 (lookup change.1 entries))]).rtake limit

def table (limit : ℕ) (changes : List (κ × (Option β → β))) : List (κ × β) :=
  changes.foldl (use limit) []

/-- The value of a key in a table that forgets nothing. -/
def value (key : κ) (changes : List (κ × (Option β → β))) : Option β :=
  changes.foldl (fun old change => if change.1 = key then some (change.2 old) else old) none

section Table

variable {limit : ℕ} {key : κ} {entries : List (κ × β)} {change : κ × (Option β → β)}
  {changes : List (κ × (Option β → β))}

theorem table_concat (limit : ℕ) (changes : List (κ × (Option β → β)))
    (change : κ × (Option β → β)) :
    table limit (changes ++ [change]) = use limit (table limit changes) change := by
  rw [table, List.foldl_append]
  rfl

theorem map_rtake {α γ : Type*} (f : α → γ) (n : ℕ) (l : List α) :
    (l.rtake n).map f = (l.map f).rtake n := by
  rw [List.rtake, List.rtake, List.map_drop, List.length_map]

theorem keys_use : (use limit entries change).map Prod.fst =
    (promote (entries.map Prod.fst) change.1).rtake limit := by
  rw [use, map_rtake, List.map_append, promote, List.filter_map]
  rfl

/-- The keys of the table are the last ones used. -/
theorem keys_table (limit : ℕ) (changes : List (κ × (Option β → β))) :
    (table limit changes).map Prod.fst = (order (changes.map Prod.fst)).rtake limit := by
  induction changes using List.reverseRecOn with
  | nil => exact (List.rtake_nil limit).symm
  | append_singleton changes change ih =>
      rw [table_concat, keys_use, ih, promote_rtake (order_nodup _), List.map_append]
      exact congrArg (List.rtake · limit) (order_concat _ _).symm

theorem keys_nodup (limit : ℕ) (changes : List (κ × (Option β → β))) :
    ((table limit changes).map Prod.fst).Nodup := by
  rw [keys_table]
  exact (order_nodup _).sublist (List.drop_sublist _ _)

/-- The key was among the last ones whenever it was used before. -/
def Remembered (limit : ℕ) (key : κ) (uses : List κ) : Prop :=
  ∀ earlier, earlier <+: uses → key ∈ earlier → key ∈ (order earlier).rtake limit

/-- A key is remembered if never as many others are used between two of its uses. -/
theorem remembered_iff {uses : List κ} : Remembered limit key uses ↔
    ∀ before between, before ++ key :: between <+: uses → key ∉ between →
      between.dedup.length < limit := by
  constructor
  · intro h before between hbegin hbetween
    exact (mem_rtake_order hbetween).mp
      (h _ hbegin (List.mem_append_right _ List.mem_cons_self))
  · intro h earlier hbegin hmem
    obtain ⟨between, before, heq, hbetween⟩ :=
      List.eq_append_cons_of_mem (List.mem_reverse.mpr hmem)
    obtain rfl : earlier = before.reverse ++ key :: between.reverse := by
      rw [← List.reverse_reverse earlier, heq, List.reverse_append, List.reverse_cons,
        List.append_assoc, List.singleton_append]
    rw [← List.mem_reverse] at hbetween
    exact (mem_rtake_order hbetween).mpr (h _ _ hbegin hbetween)

end Table

end XmrigProxy.Lru
