import Mathlib.Data.List.Basic
import Mathlib.Data.Nat.Notation
import Mathlib.Tactic.Common

/-!
# Records that end with a separator

A stream falls into the records that are complete and the rest that is not. When a stream arrives in
pieces, the records of a piece are those of the piece with the rest of what came before it.
-/

namespace XmrigProxy

namespace Lines

variable {α : Type*} [DecidableEq α] (separator : α)

/-- The complete records, and what follows the last separator. -/
def split : List α → List (List α) × List α
  | [] => ([], [])
  | c :: stream =>
      if c = separator then ([] :: (split stream).1, (split stream).2)
      else match (split stream).1 with
        | [] => ([], c :: (split stream).2)
        | record :: records => ((c :: record) :: records, (split stream).2)

/-- Puts something before the first record. -/
def prepend (start : List α) : List (List α) × List α → List (List α) × List α
  | ([], rest) => ([], start ++ rest)
  | (record :: records, rest) => ((start ++ record) :: records, rest)

variable {separator}

theorem split_separator (stream : List α) : split separator (separator :: stream) =
    ([] :: (split separator stream).1, (split separator stream).2) := by
  rw [split, if_pos rfl]

theorem split_record {record : List α} (hrecord : separator ∉ record) (stream : List α) :
    split separator (record ++ separator :: stream) =
      (record :: (split separator stream).1, (split separator stream).2) := by
  induction record with
  | nil => exact split_separator stream
  | cons c record ih =>
      rw [List.mem_cons, not_or] at hrecord
      rw [List.cons_append, split, if_neg (Ne.symm hrecord.1), ih hrecord.2]

theorem split_rest {rest : List α} (hrest : separator ∉ rest) :
    split separator rest = ([], rest) := by
  induction rest with
  | nil => rfl
  | cons c rest ih =>
      rw [List.mem_cons, not_or] at hrest
      rw [split, if_neg (Ne.symm hrest.1), ih hrest.2]

/-- A stream has a first record, or no separator. -/
theorem exists_record (separator : α) (stream : List α) : separator ∉ stream ∨
    ∃ record rest, separator ∉ record ∧ stream = record ++ separator :: rest := by
  by_cases hmem : separator ∈ stream
  · obtain ⟨record, rest, heq, hrecord⟩ := List.eq_append_cons_of_mem hmem
    exact Or.inr ⟨record, rest, hrecord, heq⟩
  · exact Or.inl hmem

/-- Induction over the records of a stream. -/
@[elab_as_elim]
theorem record_induction (separator : α) {motive : List α → Prop} (stream : List α)
    (rest : ∀ rest, separator ∉ rest → motive rest)
    (record : ∀ record stream, separator ∉ record → motive stream →
      motive (record ++ separator :: stream)) : motive stream := by
  induction hlength : stream.length using Nat.strongRecOn generalizing stream with
  | _ n ih =>
      rcases exists_record separator stream with hrest | ⟨first, more, hfirst, rfl⟩
      · exact rest stream hrest
      · refine record first more hfirst (ih more.length ?_ more rfl)
        rw [← hlength, List.length_append, List.length_cons]
        omega

theorem rest_not_mem (stream : List α) : separator ∉ (split separator stream).2 := by
  induction stream with
  | nil => exact List.not_mem_nil
  | cons c stream ih =>
      rw [split]
      by_cases hc : c = separator
      · rw [if_pos hc]
        exact ih
      · rw [if_neg hc]
        cases (split separator stream).1 with
        | nil =>
            rw [List.mem_cons, not_or]
            exact ⟨Ne.symm hc, ih⟩
        | cons record records => exact ih

/-- What comes before a stream belongs to its first record. -/
theorem split_prepend {start : List α} (hstart : separator ∉ start) (stream : List α) :
    split separator (start ++ stream) = prepend start (split separator stream) := by
  rcases exists_record separator stream with hstream | ⟨record, rest, hrecord, rfl⟩
  · have hboth : separator ∉ start ++ stream := fun h =>
      (List.mem_append.mp h).elim hstart hstream
    rw [split_rest hboth, split_rest hstream]
    rfl
  · have hboth : separator ∉ start ++ record := fun h =>
      (List.mem_append.mp h).elim hstart hrecord
    rw [← List.append_assoc, split_record hboth, split_record hrecord]
    rfl

omit [DecidableEq α] in
theorem prepend_nil (parts : List (List α) × List α) : prepend [] parts = parts := by
  obtain ⟨_ | ⟨record, records⟩, rest⟩ := parts
  · rfl
  · rfl

theorem eq_nil_of_split {stream : List α} (h : split separator stream = ([], [])) :
    stream = [] := by
  rcases exists_record separator stream with hstream | ⟨record, rest, hrecord, rfl⟩
  · rw [split_rest hstream] at h
    exact (Prod.mk.inj h).2
  · rw [split_record hrecord] at h
    exact absurd (Prod.mk.inj h).1 (List.cons_ne_nil _ _)

/-- The rest of a stream is continued by what follows. -/
theorem split_append (xs ys : List α) : split separator (xs ++ ys) =
    ((split separator xs).1 ++ (split separator ((split separator xs).2 ++ ys)).1,
      (split separator ((split separator xs).2 ++ ys)).2) := by
  induction xs using record_induction separator with
  | rest xs hxs =>
      rw [split_rest hxs]
      rfl
  | record record xs hrecord ih =>
      rw [split_record hrecord, List.append_assoc, List.cons_append, split_record hrecord, ih]
      rfl

theorem length_split (stream : List α) :
    (split separator stream).1.length = stream.count separator := by
  induction stream using record_induction separator with
  | rest rest hrest =>
      rw [split_rest hrest, List.count_eq_zero_of_not_mem hrest]
      rfl
  | record record stream hrecord ih =>
      rw [split_record hrecord, List.length_cons, ih, List.count_append,
        List.count_eq_zero_of_not_mem hrecord, List.count_cons_self, Nat.zero_add]

omit [DecidableEq α] in
theorem record_inj {first record xs ys : List α} (hfirst : separator ∉ first)
    (hrecord : separator ∉ record) (h : first ++ separator :: xs = record ++ separator :: ys) :
    first = record ∧ xs = ys := by
  induction first generalizing record with
  | nil =>
      cases record with
      | nil => exact ⟨rfl, (List.cons.inj h).2⟩
      | cons c record =>
          have hhead : separator = c := (List.cons.inj h).1
          exact absurd (hhead ▸ List.mem_cons_self) hrecord
  | cons c first ih =>
      cases record with
      | nil =>
          have hhead : c = separator := (List.cons.inj h).1
          exact absurd (hhead ▸ List.mem_cons_self) hfirst
      | cons d record =>
          obtain ⟨rfl, htail⟩ := List.cons.inj h
          obtain ⟨rfl, hrest⟩ := ih (fun hmem => hfirst (List.mem_cons_of_mem _ hmem))
            (fun hmem => hrecord (List.mem_cons_of_mem _ hmem)) htail
          exact ⟨rfl, hrest⟩

/-- What has arrived of a sequence of records is the first of them, and a part of the next. -/
theorem split_of_start {records : List (List α)} (hrecords : ∀ record ∈ records, separator ∉ record)
    {stream : List α} (hstream : stream <+: (records.map (· ++ [separator])).flatten) :
    (split separator stream).1 = records.take (stream.count separator) ∧
      ((split separator stream).2 = [] ∨
        ∃ record ∈ records, (split separator stream).2 <+: record) := by
  induction records generalizing stream with
  | nil =>
      rw [List.map_nil, List.flatten_nil, List.prefix_nil] at hstream
      rw [hstream]
      exact ⟨rfl, Or.inl rfl⟩
  | cons record records ih =>
      have hrecord := hrecords record List.mem_cons_self
      rw [List.map_cons, List.flatten_cons] at hstream
      rcases exists_record separator stream with hrest | ⟨first, rest, hfirst, rfl⟩
      · rw [split_rest hrest, List.count_eq_zero_of_not_mem hrest]
        refine ⟨rfl, Or.inr ⟨record, List.mem_cons_self, ?_⟩⟩
        rcases List.prefix_or_prefix_of_prefix hstream (List.prefix_append _ _) with hpart | hpart
        · rcases List.prefix_concat_iff.mp hpart with heq | hpart
          · exact absurd (heq ▸ List.mem_append_right _ (List.mem_singleton_self _)) hrest
          · exact hpart
        · exact absurd (hpart.subset (List.mem_append_right _ (List.mem_singleton_self _))) hrest
      · obtain ⟨more, hmore⟩ := hstream
        rw [List.append_assoc, List.cons_append, List.append_assoc, List.singleton_append] at hmore
        obtain ⟨rfl, hrest⟩ := record_inj hfirst hrecord hmore
        obtain ⟨hsplit, hpart⟩ := ih (fun x hx => hrecords x (List.mem_cons_of_mem _ hx))
          ⟨more, hrest⟩
        rw [split_record hfirst, List.count_append, List.count_eq_zero_of_not_mem hfirst,
          List.count_cons_self, Nat.zero_add, List.take_succ_cons, hsplit]
        refine ⟨rfl, hpart.imp_right ?_⟩
        rintro ⟨x, hx, hbegins⟩
        exact ⟨x, List.mem_cons_of_mem _ hx, hbegins⟩

end Lines

end XmrigProxy
