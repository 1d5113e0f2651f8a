import XmrigProxy.ShareBoard

/-! Whether the dashboard has seen all rows since it started. What it claims is compared with the
sessions, the interruptions and the numbers of the rows, as they happened. -/
namespace XmrigProxy.ShareBoard

open Dashboard (ParsedRow)

/-- The number of a row in its stream. -/
def number (env : Env) (parsed : ParsedRow) : ℤ :=
  (Numerals.readInt env.alphabet (parsed .eventSeq)).getD 0

namespace Happening

def number? (env : Env) : Happening → Option ℤ
  | .ingest parsed => some (number env parsed)
  | _ => none

/-- Rows may be missing afterwards. -/
def Interrupts : Happening → Prop
  | .endSession _ => True
  | .protocolError _ => True
  | .fatal _ => True
  | _ => False

end Happening

/-- The numbers go on from the one before them, without a gap and without a reset. -/
def Consecutive (before : ℤ) (numbers : List ℤ) : Prop :=
  ∀ (i : ℕ) q, numbers[i]? = some q → q = before + 1 + i

section Histories

variable (env : Env) (es : ℕ → Happening)

/-- The numbers of the rows that came from one step on, up to another one. -/
def numbers (first last : ℕ) : List ℤ :=
  (List.range' first (last - first)).filterMap fun j => (es j).number? env

/-- The number of the latest row. -/
def latest (k : ℕ) : ℤ := (numbers env es 0 k).getLast?.getD 0

/-- Nothing was missed: one session was begun, at the step `start`, nothing interrupted it, and its
rows are numbered without a gap from the number before it. -/
structure Whole (k start : ℕ) : Prop where
  before : start < k
  begins : es start = .beginSession
  only : ∀ j < k, es j = .beginSession → j = start
  quiet : ∀ j < k, start < j → ¬ (es j).Interrupts
  consecutive : Consecutive (latest env es start) (numbers env es start k)

variable {env es} {k start : ℕ}

theorem numbers_succ {first last : ℕ} (h : first ≤ last) :
    numbers env es first (last + 1) = numbers env es first last ++
      ((es last).number? env).toList := by
  have hlast : first + (last - first) = last := by omega
  rw [numbers, Nat.succ_sub h, List.range'_1_concat, hlast, List.filterMap_append]
  cases hnumber : (es last).number? env <;> simp [numbers, hnumber]

theorem latest_succ (env : Env) (es : ℕ → Happening) (k : ℕ) :
    latest env es (k + 1) = ((es k).number? env).getD (latest env es k) := by
  rw [latest, numbers_succ (Nat.zero_le k)]
  cases (es k).number? env with
  | none => rw [Option.toList_none, List.append_nil]; rfl
  | some q => rw [Option.toList_some, List.getLast?_concat]; rfl

/-- The latest number is that of the last row since a step, if there was one. -/
theorem latest_since (h : start ≤ k) :
    latest env es k = (numbers env es start k).getLast?.getD (latest env es start) := by
  induction k with
  | zero =>
      obtain rfl := Nat.le_zero.mp h
      rfl
  | succ k ih =>
      rcases Nat.le_succ_iff.mp h with hle | rfl
      · rw [latest_succ, numbers_succ hle, ih hle]
        cases (es k).number? env with
        | none => rw [Option.toList_none, List.append_nil]; rfl
        | some q => rw [Option.toList_some, List.getLast?_concat]; rfl
      · rw [numbers, Nat.sub_self]
        rfl

theorem consecutive_concat (before q : ℤ) (ns : List ℤ) :
    Consecutive before (ns ++ [q]) ↔
      Consecutive before ns ∧ q = ns.getLast?.getD before + 1 := by
  have hlast : Consecutive before ns → ns.getLast?.getD before = before + ns.length := by
    intro hall
    rcases List.eq_nil_or_concat ns with rfl | ⟨init, last, rfl⟩
    · simp
    · have hvalue := hall init.length last (by simp)
      rw [List.concat_eq_append, List.getLast?_concat, Option.getD_some, hvalue,
        List.length_append, List.length_singleton]
      omega
  constructor
  · intro hall
    have hbefore : Consecutive before ns := by
      intro i r hr
      apply hall i r
      rw [List.getElem?_append_left (List.getElem?_eq_some_iff.mp hr).1]
      exact hr
    refine ⟨hbefore, ?_⟩
    rw [hlast hbefore, hall ns.length q (by simp)]
    omega
  · rintro ⟨hbefore, rfl⟩ i r hr
    rw [List.getElem?_append] at hr
    split at hr
    · exact hbefore i r hr
    · obtain ⟨hi, rfl⟩ := List.getElem?_eq_some_iff.mp hr
      rw [List.length_singleton] at hi
      rw [List.getElem_singleton, hlast hbefore]
      omega

/-- Only the first session can be without a gap. -/
theorem whole_begin (h : es k = .beginSession) :
    (∃ start, Whole env es (k + 1) start) ↔ ∀ j < k, es j ≠ .beginSession := by
  constructor
  · rintro ⟨start, hwhole⟩ j hj hbegins
    have hlast := hwhole.only k (Nat.lt_succ_self k) h
    have hearlier := hwhole.only j (Nat.lt_succ_of_lt hj) hbegins
    omega
  · intro hfirst
    refine ⟨k, Nat.lt_succ_self k, h, ?_, ?_, ?_⟩
    · intro j hj hbegins
      by_contra hne
      exact hfirst j (by omega) hbegins
    · intro j hj hlater
      omega
    · rw [numbers_succ le_rfl, h, numbers, Nat.sub_self]
      exact fun i q hq => nomatch hq

theorem not_whole_interrupted (h : (es k).Interrupts) : ¬ Whole env es (k + 1) start := by
  intro hwhole
  have hstart := hwhole.before
  rcases Nat.lt_or_ge start k with hless | hge
  · exact hwhole.quiet k (Nat.lt_succ_self k) hless h
  · obtain rfl : start = k := by omega
    rw [hwhole.begins] at h
    exact h

/-- Otherwise a row has to have the next number. -/
theorem whole_succ (hbegins : es k ≠ .beginSession) (hquiet : ¬ (es k).Interrupts) :
    Whole env es (k + 1) start ↔
      Whole env es k start ∧ ∀ q ∈ (es k).number? env, q = latest env es k + 1 := by
  have hconsecutive : start ≤ k →
      (Consecutive (latest env es start) (numbers env es start (k + 1)) ↔
        Consecutive (latest env es start) (numbers env es start k) ∧
          ∀ q ∈ (es k).number? env, q = latest env es k + 1) := by
    intro hle
    rw [numbers_succ hle, latest_since hle]
    cases (es k).number? env with
    | none => simp
    | some q => simp [consecutive_concat]
  constructor
  · intro h
    have hless : start < k := by
      have hstart := h.before
      rcases Nat.lt_or_ge start k with hless | hge
      · exact hless
      · obtain rfl : start = k := by omega
        exact absurd h.begins hbegins
    obtain ⟨hold, hnew⟩ := (hconsecutive hless.le).mp h.consecutive
    exact ⟨⟨hless, h.begins, fun j hj => h.only j (Nat.lt_succ_of_lt hj),
      fun j hj => h.quiet j (Nat.lt_succ_of_lt hj), hold⟩, hnew⟩
  · rintro ⟨h, hnew⟩
    refine ⟨Nat.lt_succ_of_lt h.before, h.begins, ?_, ?_,
      (hconsecutive h.before.le).mpr ⟨h.consecutive, hnew⟩⟩
    · intro j hj hother
      rcases Nat.lt_succ_iff_lt_or_eq.mp hj with hj | rfl
      · exact h.only j hj hother
      · exact absurd hother hbegins
    · intro j hj hlater
      rcases Nat.lt_succ_iff_lt_or_eq.mp hj with hj | rfl
      · exact h.quiet j hj hlater
      · exact hquiet

end Histories

namespace Board

variable {env : Env} {es : ℕ → Happening} {k : ℕ} {b : Board} {row : Row} {parsed : ParsedRow}

/-- What says whether all rows were seen. -/
def coverage (b : Board) : ℕ × Option ℤ × Bool := (b.session, b.sourceSequence, b.coverageComplete)

@[simp] theorem notice_coverage : b.notice.coverage = b.coverage := rfl

@[simp] theorem rememberShare_coverage : (b.rememberShare row).coverage = b.coverage := by
  rw [rememberShare]
  split
  · rfl
  · simp only [coverage]

@[simp] theorem considerTop_coverage : (b.considerTop env row).coverage = b.coverage := by
  rw [considerTop]
  split
  · rfl
  · split
    · rfl
    · split
      · rfl
      · dsimp only
        split
        · rfl
        · simp only [coverage]

theorem ingest_coverage :
    (b.ingest env parsed).coverage = (b.observeSequence env (rowOf parsed)).coverage := by
  unfold ingest
  rw [notice_coverage, considerTop_coverage]
  split
  · exact rememberShare_coverage
  · rfl

/-- The dashboard knows what was said so far. -/
structure Covered (env : Env) (es : ℕ → Happening) (k : ℕ) (b : Board) : Prop where
  latest : b.sourceSequence.getD 0 = latest env es k
  session : b.session = 0 ↔ ∀ j < k, es j ≠ .beginSession
  complete : b.coverageComplete = true ↔ ∃ start, Whole env es k start

theorem Covered.congr {c : Board} (h : Covered env es k b) (heq : c.coverage = b.coverage) :
    Covered env es k c := by
  obtain ⟨hsession, hsource, hcomplete⟩ : c.session = b.session ∧
      c.sourceSequence = b.sourceSequence ∧ c.coverageComplete = b.coverageComplete := by
    simpa only [coverage, Prod.mk.injEq] using heq
  refine ⟨?_, ?_, ?_⟩
  · rw [hsource]
    exact h.latest
  · rw [hsession]
    exact h.session
  · rw [hcomplete]
    exact h.complete

theorem forall_lt_succ (h : es k ≠ .beginSession) :
    (∀ j < k + 1, es j ≠ .beginSession) ↔ ∀ j < k, es j ≠ .beginSession := by
  constructor
  · exact fun hall j hj => hall j (Nat.lt_succ_of_lt hj)
  · intro hall j hj
    rcases Nat.lt_succ_iff_lt_or_eq.mp hj with hj | rfl
    · exact hall j hj
    · exact h

/-- A step that is neither a row nor the beginning of a session. -/
theorem covered_silent (h : Covered env es k b) {c : Board} (hbegins : es k ≠ .beginSession)
    (hnumber : (es k).number? env = none) (hsession : c.session = b.session)
    (hsource : c.sourceSequence = b.sourceSequence)
    (hcomplete : c.coverageComplete = true ↔
      b.coverageComplete = true ∧ ¬ (es k).Interrupts) : Covered env es (k + 1) c := by
  refine ⟨?_, ?_, ?_⟩
  · rw [hsource, latest_succ, hnumber]
    exact h.latest
  · rw [hsession, forall_lt_succ hbegins]
    exact h.session
  · rw [hcomplete, h.complete]
    by_cases hinterrupts : (es k).Interrupts
    · exact ⟨fun hboth => absurd hinterrupts hboth.2,
        fun ⟨start, hwhole⟩ => absurd hwhole (not_whole_interrupted hinterrupts)⟩
    · simp only [whole_succ hbegins hinterrupts, hnumber, hinterrupts, not_false_eq_true,
        and_true, Option.mem_def, reduceCtorEq, false_imp_iff, implies_true]

theorem covered_observeSequence (h : Covered env es k b) (hrow : es k = .ingest parsed) :
    Covered env es (k + 1) (b.observeSequence env (rowOf parsed)) := by
  have hbegins : es k ≠ .beginSession := by
    rw [hrow]
    exact fun hother => nomatch hother
  have hquiet : ¬ (es k).Interrupts := by
    rw [hrow]
    exact fun hinterrupts => hinterrupts
  have hnumber : (es k).number? env = some (number env parsed) := by
    rw [hrow]
    rfl
  have hwhole : (∃ start, Whole env es (k + 1) start) ↔
      b.coverageComplete = true ∧ number env parsed = b.sourceSequence.getD 0 + 1 := by
    simp only [whole_succ hbegins hquiet, hnumber, Option.mem_def, Option.some.injEq,
      forall_eq', exists_and_right, h.complete, h.latest]
  have hlatest : ∀ c : Board, c.sourceSequence = some (number env parsed) →
      c.sourceSequence.getD 0 = ShareBoard.latest env es (k + 1) := by
    intro c hc
    rw [hc, latest_succ, hnumber]
    rfl
  unfold observeSequence
  dsimp only
  split
  · rename_i hnext
    refine ⟨hlatest _ rfl, ?_, ?_⟩
    · rw [forall_lt_succ hbegins]
      exact h.session
    · rw [hwhole]
      exact (and_iff_left hnext).symm
  · rename_i hgap
    refine ⟨hlatest _ rfl, ?_, ?_⟩
    · rw [forall_lt_succ hbegins]
      exact h.session
    · rw [hwhole]
      exact ⟨fun hfalse => (nomatch hfalse), fun hboth => absurd hboth.2 hgap⟩

theorem covered_beginSession (h : Covered env es k b) (hbegins : es k = .beginSession) :
    Covered env es (k + 1) b.beginSession := by
  refine ⟨?_, ?_, ?_⟩
  · rw [latest_succ, hbegins]
    exact h.latest
  · exact ⟨fun hzero => (nomatch hzero),
      fun hall => absurd hbegins (hall k (Nat.lt_succ_self k))⟩
  · rw [whole_begin hbegins, ← h.session]
    simp [beginSession, notice]

theorem covered_step (h : Covered env es k b) : Covered env es (k + 1) (b.step env (es k)) := by
  cases he : es k with
  | beginSession => exact covered_beginSession h he
  | endSession message =>
      exact covered_silent h (by rw [he]; nofun) (by rw [he]; rfl) rfl rfl
        (by simp [he, step, endSession, interrupted, notice, Happening.Interrupts])
  | waiting message =>
      have hsame : (waiting message b).coverage = b.coverage := by
        unfold waiting
        dsimp only
        split <;> rfl
      have hsilent : Covered env es (k + 1) b :=
        covered_silent h (by rw [he]; nofun) (by rw [he]; rfl) rfl rfl
          (by simp [he, Happening.Interrupts])
      exact hsilent.congr hsame
  | protocolError message =>
      exact covered_silent h (by rw [he]; nofun) (by rw [he]; rfl) rfl rfl
        (by simp [he, step, protocolError, interrupted, notice, Happening.Interrupts])
  | fatal message =>
      exact covered_silent h (by rw [he]; nofun) (by rw [he]; rfl) rfl rfl
        (by simp [he, step, fatal, interrupted, notice, Happening.Interrupts])
  | ingest parsed => exact (covered_observeSequence h he).congr ingest_coverage

theorem covered_state (env : Env) (es : ℕ → Happening) (k : ℕ) :
    Covered env es k ((machine env).state es k) := by
  induction k with
  | zero =>
      refine ⟨rfl, ⟨fun _ j hj => absurd hj (Nat.not_lt_zero j), fun _ => rfl⟩, ?_⟩
      exact ⟨fun hfalse => (nomatch hfalse),
        fun ⟨start, hwhole⟩ => absurd hwhole.before (Nat.not_lt_zero start)⟩
  | succ k ih => exact covered_step ih

end Board

/-- At any time the dashboard claims to have seen everything if and only if one session was begun so
far, nothing interrupted it, and its rows were numbered without a gap. -/
theorem coverage_exact (env : Env) (es : ℕ → Happening) (k : ℕ) :
    ((Board.machine env).state es k).coverageComplete = true ↔ ∃ start, Whole env es k start :=
  (Board.covered_state env es k).complete

end XmrigProxy.ShareBoard
