import XmrigProxy.Library.Lines
import Mathlib.Data.List.Induction
import Mathlib.Data.List.TakeWhile

/-! The dashboard cuts the event stream into records, whatever pieces it arrives in. A feed that
meets a record past the limit raises, and hands out nothing of its piece. -/
namespace XmrigProxy

/-- `buffer` holds the part of a record that has arrived. -/
structure FrameBuffer where
  limit : ℕ := 8 * 1024 * 1024
  buffer : List UInt8 := []
  deriving DecidableEq, Repr

namespace FrameBuffer

def newline : UInt8 := 0x0a

def carriageReturn : UInt8 := 0x0d

def hasPartial (b : FrameBuffer) : Bool := b.buffer ≠ []

/-- A record without the carriage return that it may end with. -/
def strip (record : List UInt8) : List UInt8 :=
  if record.getLast? = some carriageReturn then record.dropLast else record

/-- The records that are cut off the buffer, or nothing if one of them is too long. -/
def takeRecords (limit : ℕ) : List (List UInt8) → Option (List (List UInt8))
  | [] => some []
  | record :: rest =>
      if limit < record.length then none
      else (takeRecords limit rest).map fun records =>
        if strip record ≠ [] then strip record :: records else records

def feed (chunk : List UInt8) (b : FrameBuffer) :
    FrameBuffer × Except String (List (List UInt8)) :=
  let parts := Lines.split newline (b.buffer ++ chunk)
  let raised : FrameBuffer × Except String (List (List UInt8)) :=
    ({ b with buffer := [] }, .error ("CSV record exceeds " ++ toString b.limit ++ " bytes"))
  match takeRecords b.limit parts.1 with
  | none => raised
  | some records =>
      if b.limit < parts.2.length then raised
      else ({ b with buffer := parts.2 }, .ok records)

/-- The records that the feeds hand out up to the first that raises, and whether there was one. -/
def run : List (List UInt8) → FrameBuffer → List (List UInt8) × Bool
  | [], _ => ([], false)
  | chunk :: chunks, b =>
      match b.feed chunk with
      | (b, .ok records) => (records ++ (run chunks b).1, (run chunks b).2)
      | (_, .error _) => ([], true)

/-! ### What a stream contains -/

/-- The nonempty records that a stream completes. -/
def records (stream : List UInt8) : List (List UInt8) :=
  ((Lines.split newline stream).1.map strip).filter (· ≠ [])

/-- No record of the stream is past the limit, be it complete or not. -/
def Fits (limit : ℕ) (stream : List UInt8) : Prop :=
  (∀ record ∈ (Lines.split newline stream).1, record.length ≤ limit) ∧
    (Lines.split newline stream).2.length ≤ limit

instance (limit : ℕ) (stream : List UInt8) : Decidable (Fits limit stream) :=
  inferInstanceAs (Decidable (_ ∧ _))

/-- A nonempty record ends where the stream does. -/
def Completes (stream : List UInt8) : Prop :=
  (Lines.split newline stream).2 = [] ∧
    ∃ record ∈ (Lines.split newline stream).1.getLast?, strip record ≠ []

/-- What came before the chunk with which a record goes past the limit; `received` came before the
chunks. -/
def intact (limit : ℕ) (received : List UInt8) : List (List UInt8) → List UInt8
  | [] => received
  | chunk :: chunks =>
      if Fits limit (received ++ chunk) then intact limit (received ++ chunk) chunks else received

section Records

variable {limit : ℕ} {stream : List UInt8}

theorem takeRecords_eq (limit : ℕ) (parts : List (List UInt8)) : takeRecords limit parts =
    if ∀ record ∈ parts, record.length ≤ limit then some ((parts.map strip).filter (· ≠ []))
    else none := by
  induction parts with
  | nil => rfl
  | cons record rest ih =>
      rw [takeRecords, ih]
      by_cases hlong : limit < record.length
      · rw [if_pos hlong, if_neg]
        intro hall
        exact Nat.not_le_of_lt hlong (hall record List.mem_cons_self)
      · rw [if_neg hlong]
        by_cases hrest : ∀ record ∈ rest, record.length ≤ limit
        · have hall : ∀ x ∈ record :: rest, x.length ≤ limit := by
            intro x hx
            rcases List.mem_cons.mp hx with rfl | hx
            · exact Nat.le_of_not_lt hlong
            · exact hrest x hx
          rw [if_pos hrest, if_pos hall, Option.map_some, List.map_cons, List.filter_cons]
          simp only [decide_eq_true_eq]
        · rw [if_neg hrest, if_neg, Option.map_none]
          exact fun hall => hrest fun x hx => hall x (List.mem_cons_of_mem _ hx)

/-- A feed hands out what the buffer and the chunk complete, unless they hold too long a record. -/
theorem feed_eq (chunk : List UInt8) (b : FrameBuffer) : b.feed chunk =
    if Fits b.limit (b.buffer ++ chunk) then
      ({ b with buffer := (Lines.split newline (b.buffer ++ chunk)).2 },
        .ok (records (b.buffer ++ chunk)))
    else ({ b with buffer := [] },
      .error ("CSV record exceeds " ++ toString b.limit ++ " bytes")) := by
  unfold feed records
  dsimp only
  rw [takeRecords_eq]
  by_cases hall : ∀ record ∈ (Lines.split newline (b.buffer ++ chunk)).1, record.length ≤ b.limit
  · rw [if_pos hall]
    dsimp only
    by_cases hrest : b.limit < (Lines.split newline (b.buffer ++ chunk)).2.length
    · rw [if_pos hrest, if_neg fun h => Nat.not_le_of_lt hrest h.2]
    · rw [if_neg hrest, if_pos ⟨hall, Nat.le_of_not_lt hrest⟩]
  · rw [if_neg hall, if_neg fun h => hall h.1]

/-- What a stream completes, and what it goes on with after that. -/
theorem records_append (xs ys : List UInt8) : records (xs ++ ys) =
    records xs ++ records ((Lines.split newline xs).2 ++ ys) := by
  unfold records
  rw [Lines.split_append xs ys, List.map_append, List.filter_append]

theorem fits_append (xs ys : List UInt8) : Fits limit (xs ++ ys) ↔
    (∀ record ∈ (Lines.split newline xs).1, record.length ≤ limit) ∧
      Fits limit ((Lines.split newline xs).2 ++ ys) := by
  unfold Fits
  rw [Lines.split_append xs ys]
  simp only [List.mem_append]
  constructor
  · rintro ⟨hall, hrest⟩
    exact ⟨fun x hx => hall x (Or.inl hx), fun x hx => hall x (Or.inr hx), hrest⟩
  · rintro ⟨hxs, hys, hrest⟩
    exact ⟨fun x hx => hx.elim (hxs x) (hys x), hrest⟩

/-- What starts a record is no longer than the record. -/
theorem length_le_of_fits_append {start : List UInt8} (hstart : newline ∉ start) {ys : List UInt8}
    (h : Fits limit (start ++ ys)) : start.length ≤ limit := by
  obtain ⟨hall, hrest⟩ := h
  rw [Lines.split_prepend hstart] at hall hrest
  generalize Lines.split newline ys = parts at hall hrest
  obtain ⟨_ | ⟨record, more⟩, rest⟩ := parts
  · change (start ++ rest).length ≤ limit at hrest
    rw [List.length_append] at hrest
    omega
  · have hfirst := hall (start ++ record) List.mem_cons_self
    rw [List.length_append] at hfirst
    omega

theorem Fits.of_append {xs ys : List UInt8} (h : Fits limit (xs ++ ys)) : Fits limit xs := by
  obtain ⟨hall, hrest⟩ := (fits_append xs ys).mp h
  exact ⟨hall, length_le_of_fits_append (Lines.rest_not_mem xs) hrest⟩

/-- One more byte completes one record at most. -/
theorem records_concat (stream : List UInt8) (c : UInt8) :
    (¬ Completes (stream ++ [c]) ∧ records (stream ++ [c]) = records stream) ∨
      (Completes (stream ++ [c]) ∧ ∃ record, records (stream ++ [c]) =
        records stream ++ [record]) := by
  have hrest : newline ∉ (Lines.split newline stream).2 := Lines.rest_not_mem stream
  have hsplit : Lines.split newline (stream ++ [c]) = _ := Lines.split_append stream [c]
  rw [records_append stream [c]]
  generalize hparts : (Lines.split newline stream).2 = rest at hrest hsplit ⊢
  by_cases hc : c = newline
  · subst hc
    rw [Lines.split_record hrest] at hsplit
    have hone : records (rest ++ [newline]) = if strip rest = [] then [] else [strip rest] := by
      unfold records
      rw [Lines.split_record hrest]
      by_cases hempty : strip rest = [] <;> simp [Lines.split, hempty]
    have hcompletes : Completes (stream ++ [newline]) ↔ strip rest ≠ [] := by
      unfold Completes
      rw [hsplit]
      simp [Lines.split]
    by_cases hempty : strip rest = []
    · refine Or.inl ⟨fun h => hcompletes.mp h hempty, ?_⟩
      rw [hone, if_pos hempty, List.append_nil]
    · refine Or.inr ⟨hcompletes.mpr hempty, strip rest, ?_⟩
      rw [hone, if_neg hempty]
  · have hlonger : newline ∉ rest ++ [c] := by
      rw [List.mem_append, List.mem_singleton, not_or]
      exact ⟨hrest, Ne.symm hc⟩
    rw [Lines.split_rest hlonger] at hsplit
    refine Or.inl ⟨?_, ?_⟩
    · rintro ⟨hnil, -⟩
      rw [hsplit] at hnil
      exact List.append_ne_nil_of_right_ne_nil _ (List.cons_ne_nil _ _) hnil
    · have hnone : records (rest ++ [c]) = [] := by
        unfold records
        rw [Lines.split_rest hlonger]
        rfl
      rw [hnone, List.append_nil]

/-- A stream completes no more than its start exactly when nothing is completed after that. -/
theorem records_eq_iff (start more : List UInt8) : records (start ++ more) = records start ↔
    ∀ n, start.length < n → n ≤ (start ++ more).length → ¬ Completes ((start ++ more).take n) := by
  induction more using List.reverseRecOn with
  | nil =>
      rw [List.append_nil]
      exact iff_of_true rfl fun n hlow hhigh => absurd hhigh (Nat.not_le_of_lt hlow)
  | append_singleton more c ih =>
      have hlength : (start ++ (more ++ [c])).length = (start ++ more).length + 1 := by
        rw [← List.append_assoc, List.length_append, List.length_singleton]
      have hlow : start.length ≤ (start ++ more).length := by
        rw [List.length_append]
        exact Nat.le_add_right _ _
      have htake : ∀ n ≤ (start ++ more).length,
          (start ++ (more ++ [c])).take n = (start ++ more).take n := by
        intro n hn
        rw [← List.append_assoc, List.take_append_of_le_length hn]
      have hwhole : (start ++ (more ++ [c])).take ((start ++ more).length + 1) =
          start ++ more ++ [c] := by
        rw [← hlength, List.take_length, List.append_assoc]
      rcases records_concat (start ++ more) c with ⟨hnone, heq⟩ | ⟨hsome, record, heq⟩
      · rw [← List.append_assoc, heq, ih, List.append_assoc, hlength]
        constructor
        · intro h n hn hle
          rcases Nat.lt_or_eq_of_le hle with hlt | rfl
          · rw [htake n (Nat.le_of_lt_succ hlt)]
            exact h n hn (Nat.le_of_lt_succ hlt)
          · rw [hwhole]
            exact hnone
        · intro h n hn hle
          rw [← htake n hle]
          exact h n hn (Nat.le_succ_of_le hle)
      · refine iff_of_false ?_ ?_
        · intro hsame
          have hless := congrArg List.length ((List.append_assoc start more [c]) ▸ heq)
          rw [hsame, records_append start more, List.append_assoc, List.length_append,
            List.length_append, List.length_singleton] at hless
          omega
        · intro h
          have hlast := h ((start ++ more).length + 1) (Nat.lt_succ_of_le hlow) hlength.ge
          rw [hwhole] at hlast
          exact hlast hsome

end Records

section Chunks

variable {limit : ℕ} {received : List UInt8}

theorem prefix_intact (limit : ℕ) (received : List UInt8) (chunks : List (List UInt8)) :
    intact limit received chunks <+: received ++ chunks.flatten := by
  induction chunks generalizing received with
  | nil =>
      rw [List.flatten_nil, List.append_nil]
      exact List.prefix_refl _
  | cons chunk chunks ih =>
      rw [intact, List.flatten_cons, ← List.append_assoc]
      split
      · exact ih _
      · exact (List.prefix_append _ _).trans (List.prefix_append _ _)

/-- The feeds hand out what is completed before the chunk that raises, and they raise whenever the
stream holds a record that is too long. -/
theorem run_eq (chunks : List (List UInt8)) (hfits : Fits limit received) :
    let after := run chunks ⟨limit, (Lines.split newline received).2⟩
    records received ++ after.1 = records (intact limit received chunks) ∧
      (after.2 = true ↔ ¬ Fits limit (received ++ chunks.flatten)) := by
  induction chunks generalizing received with
  | nil =>
      rw [List.flatten_nil, List.append_nil]
      refine ⟨List.append_nil _, ?_⟩
      exact iff_of_false Bool.false_ne_true fun hnot => hnot hfits
  | cons chunk chunks ih =>
      have hfeed := feed_eq chunk ⟨limit, (Lines.split newline received).2⟩
      have hsame : Fits limit ((Lines.split newline received).2 ++ chunk) ↔
          Fits limit (received ++ chunk) := by
        rw [fits_append received chunk]
        exact (and_iff_right hfits.1).symm
      dsimp only at hfeed
      rw [run, intact, hfeed, List.flatten_cons, ← List.append_assoc]
      by_cases hnext : Fits limit (received ++ chunk)
      · have hrest : (Lines.split newline ((Lines.split newline received).2 ++ chunk)).2 =
            (Lines.split newline (received ++ chunk)).2 := by
          rw [Lines.split_append received chunk]
        rw [if_pos (hsame.mpr hnext), if_pos hnext, hrest]
        obtain ⟨hrecords, hraised⟩ := ih hnext
        refine ⟨?_, hraised⟩
        rw [← hrecords, records_append received chunk, List.append_assoc]
      · rw [if_neg fun h => hnext (hsame.mp h), if_neg hnext]
        refine ⟨List.append_nil _, ?_⟩
        exact iff_of_true rfl fun h => hnext h.of_append

theorem run_start (limit : ℕ) (chunks : List (List UInt8)) :
    (run chunks { limit }).1 = records (intact limit [] chunks) ∧
      ((run chunks { limit }).2 = true ↔ ¬ Fits limit chunks.flatten) := by
  have hfits : Fits limit [] := ⟨fun _ hx => absurd hx List.not_mem_nil, Nat.zero_le _⟩
  exact run_eq chunks hfits

/-- Two starts of a stream complete the same records when none is completed between their ends. -/
theorem records_eq_iff_of_prefix {stream start longer : List UInt8} (hstart : start <+: stream)
    (hlonger : longer <+: stream) (hle : start.length ≤ longer.length) :
    records start = records longer ↔
      ∀ n, Completes (stream.take n) → (n ≤ start.length ↔ n ≤ longer.length) := by
  obtain ⟨more, rfl⟩ := List.prefix_of_prefix_length_le hstart hlonger hle
  obtain ⟨after, rfl⟩ := hlonger
  have htake : ∀ n ≤ (start ++ more).length,
      (start ++ more ++ after).take n = (start ++ more).take n :=
    fun n hn => List.take_append_of_le_length hn
  rw [eq_comm, records_eq_iff]
  constructor
  · intro hnone n hcompletes
    refine ⟨fun hn => hn.trans hle, fun hn => ?_⟩
    by_contra hlow
    rw [htake n hn] at hcompletes
    exact hnone n (Nat.lt_of_not_le hlow) hn hcompletes
  · intro hsame n hlow hn hcompletes
    rw [← htake n hn] at hcompletes
    exact Nat.not_le_of_lt hlow ((hsame n hcompletes).mpr hn)

/-- Two ways to cut a stream raise alike. They hand out the same records exactly when no nonempty
record ends between the places from which each of them goes past the limit. -/
theorem run_eq_iff (limit : ℕ) (xs ys : List (List UInt8)) (hstream : xs.flatten = ys.flatten) :
    ((run xs { limit }).2 = true ↔ ¬ Fits limit xs.flatten) ∧
    ((run ys { limit }).2 = true ↔ ¬ Fits limit xs.flatten) ∧
    (run xs { limit } = run ys { limit } ↔ ∀ n, Completes (xs.flatten.take n) →
      (n ≤ (intact limit [] xs).length ↔ n ≤ (intact limit [] ys).length)) := by
  obtain ⟨hxs, hxsRaised⟩ := run_start limit xs
  obtain ⟨hys, hysRaised⟩ := run_start limit ys
  rw [← hstream] at hysRaised
  have hraised : (run xs { limit }).2 = (run ys { limit }).2 :=
    Bool.eq_iff_iff.mpr (hxsRaised.trans hysRaised.symm)
  have hrecords : run xs { limit } = run ys { limit } ↔
      records (intact limit [] xs) = records (intact limit [] ys) := by
    rw [Prod.ext_iff, ← hxs, ← hys]
    exact and_iff_left hraised
  have hxsPrefix : intact limit [] xs <+: xs.flatten := prefix_intact limit [] xs
  have hysPrefix : intact limit [] ys <+: xs.flatten := hstream ▸ prefix_intact limit [] ys
  refine ⟨hxsRaised, hysRaised, hrecords.trans ?_⟩
  rcases Nat.le_total (intact limit [] xs).length (intact limit [] ys).length with hle | hle
  · exact records_eq_iff_of_prefix hxsPrefix hysPrefix hle
  · rw [eq_comm, records_eq_iff_of_prefix hysPrefix hxsPrefix hle]
    exact forall₂_congr fun _ _ => Iff.comm

/-- A record is cut, and no record goes past the limit. -/
theorem run_eq_iff_cut : [[97, 10, 98], [10]].flatten = [[97], [10, 98, 10]].flatten ∧
    ∀ n, Completes ([[97, 10, 98], [10]].flatten.take n) →
      (n ≤ (intact 2 [] [[97, 10, 98], [10]]).length ↔ n ≤
        (intact 2 [] [[97], [10, 98, 10]]).length) :=
  ⟨rfl, (run_eq_iff 2 [[97, 10, 98], [10]] [[97], [10, 98, 10]] rfl).2.2.mp (by decide)⟩

/-- A record that shares its chunk with one past the limit is lost, and is not when it comes
alone. -/
theorem run_loses_record : [[97, 10, 98, 98, 98]].flatten = [[97, 10], [98, 98, 98]].flatten ∧
    run [[97, 10, 98, 98, 98]] ⟨2, []⟩ = ([], true) ∧
    run [[97, 10], [98, 98, 98]] ⟨2, []⟩ = ([[97]], true) := by
  decide

/-! ### Chunks within the limit -/

theorem fits_of_length_le {stream : List UInt8} (h : stream.length ≤ limit) :
    Fits limit stream := by
  induction stream using Lines.record_induction newline with
  | rest rest hrest =>
      unfold Fits
      rw [Lines.split_rest hrest]
      exact ⟨fun _ hx => absurd hx List.not_mem_nil, h⟩
  | record record stream hrecord ih =>
      rw [List.length_append, List.length_cons] at h
      obtain ⟨hall, hrest⟩ := ih (by omega)
      unfold Fits
      rw [Lines.split_record hrecord]
      refine ⟨fun x hx => ?_, hrest⟩
      rcases List.mem_cons.mp hx with rfl | hx
      · omega
      · exact hall x hx

/-- The nonempty records before the first that is past the limit. -/
def expected (limit : ℕ) (stream : List UInt8) : List (List UInt8) :=
  (((Lines.split newline stream).1.takeWhile fun record => record.length ≤ limit).map strip).filter
    (· ≠ [])

theorem expected_append (hfits : Fits limit received) (more : List UInt8) :
    expected limit (received ++ more) =
      records received ++ expected limit ((Lines.split newline received).2 ++ more) := by
  have hall : ∀ record ∈ (Lines.split newline received).1,
      (decide (record.length ≤ limit)) = true :=
    fun record hrecord => decide_eq_true (hfits.1 record hrecord)
  unfold expected records
  rw [Lines.split_append received more, List.takeWhile_append_of_pos hall, List.map_append,
    List.filter_append]

/-- A chunk that is no longer than a record may be takes the record past the limit that it goes on
with, and no later one. -/
theorem expected_eq_nil {rest chunk : List UInt8} (hrest : newline ∉ rest)
    (hsmall : chunk.length ≤ limit + 1) (hlong : ¬ Fits limit (rest ++ chunk)) (more : List UInt8) :
    expected limit (rest ++ (chunk ++ more)) = [] := by
  have hfirst : ∀ start ys, newline ∉ start → limit < start.length →
      expected limit (start ++ ys) = [] := by
    intro start ys hstart hlength
    unfold expected
    rw [Lines.split_prepend hstart]
    obtain ⟨_ | ⟨record, records⟩, tail⟩ := Lines.split newline ys
    · rfl
    · have hnot : ¬ (start ++ record).length ≤ limit := by
        rw [List.length_append]
        omega
      change ((((start ++ record) :: records).takeWhile _).map strip).filter _ = []
      rw [List.takeWhile_cons_of_neg (by rwa [decide_eq_true_eq])]
      rfl
  rcases Lines.exists_record newline chunk with hchunk | ⟨record, after, hrecord, rfl⟩
  · have hboth : newline ∉ rest ++ chunk := fun h => (List.mem_append.mp h).elim hrest hchunk
    rw [← List.append_assoc]
    refine hfirst _ _ hboth (Nat.lt_of_not_le fun hle => hlong ?_)
    exact fits_of_length_le hle
  · have hboth : newline ∉ rest ++ record := fun h => (List.mem_append.mp h).elim hrest hrecord
    rw [List.length_append, List.length_cons] at hsmall
    have hafter : Fits limit after := fits_of_length_le (by omega)
    have hstart : limit < (rest ++ record).length := by
      refine Nat.lt_of_not_le fun hle => hlong ?_
      unfold Fits
      rw [← List.append_assoc, Lines.split_record hboth]
      refine ⟨fun x hx => ?_, hafter.2⟩
      rcases List.mem_cons.mp hx with rfl | hx
      · exact hle
      · exact hafter.1 x hx
    have hassoc : rest ++ (record ++ newline :: after ++ more) =
        rest ++ record ++ (newline :: after ++ more) := by simp only [List.append_assoc]
    rw [hassoc]
    exact hfirst _ _ hboth hstart

theorem records_intact (chunks : List (List UInt8)) (hfits : Fits limit received)
    (hsmall : ∀ chunk ∈ chunks, chunk.length ≤ limit + 1) :
    records (intact limit received chunks) = expected limit (received ++ chunks.flatten) := by
  induction chunks generalizing received with
  | nil =>
      have hnone := expected_append hfits []
      have hrest : expected limit (Lines.split newline received).2 = [] := by
        unfold expected
        rw [Lines.split_rest (Lines.rest_not_mem received)]
        rfl
      rw [List.append_nil, List.append_nil, hrest, List.append_nil] at hnone
      rw [List.flatten_nil, List.append_nil, hnone]
      rfl
  | cons chunk chunks ih =>
      rw [intact, List.flatten_cons]
      by_cases hnext : Fits limit (received ++ chunk)
      · rw [if_pos hnext, ← List.append_assoc]
        exact ih hnext fun x hx => hsmall x (List.mem_cons_of_mem _ hx)
      · have hlong : ¬ Fits limit ((Lines.split newline received).2 ++ chunk) :=
          fun h => hnext ((fits_append received chunk).mpr ⟨hfits.1, h⟩)
        rw [if_neg hnext, expected_append hfits, expected_eq_nil (Lines.rest_not_mem received)
          (hsmall chunk List.mem_cons_self) hlong, List.append_nil]

/-- Chunks that are no longer than a record may be lose nothing. -/
theorem run_of_small_chunks (chunks : List (List UInt8))
    (hsmall : ∀ chunk ∈ chunks, chunk.length ≤ limit + 1) :
    (run chunks { limit }).1 = expected limit chunks.flatten := by
  have hfits : Fits limit [] := fits_of_length_le (Nat.zero_le _)
  rw [(run_start limit chunks).1, records_intact chunks hfits hsmall, List.nil_append]

end Chunks

end FrameBuffer

end XmrigProxy
