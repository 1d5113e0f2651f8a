import XmrigProxy.TemplateLayout

/-! Where the varints of a template start. Up to the hashes a parse stores nothing, and it shifts
bits out of range exactly where ten bytes of a varint are not enough. -/
namespace XmrigProxy.BlockTemplate

open BlobReader
open Ask (record question)

section Logs

variable {data : Buffer} {log log' : List Access}

/-- A varint starts at `p`, where its reader has so many bytes left. -/
def VarintAt (log : List Access) (p left : ℕ) : Prop :=
  ∃ index next size, [.read p, .move index next size, .shift 0] <:+: log ∧ left = size - index

/-- Ten bytes from `p` on say that another one follows, and it does. -/
def LongVarint (data : Buffer) (p left : ℕ) : Prop :=
  10 < left ∧ p + 10 < data.length ∧ ∀ j < 10, ∃ b, data[p + j]? = some b ∧ 128 ≤ b.toNat

/-- Does not open a part of the parse. -/
def Inner : Access → Prop
  | .move _ _ _ => True
  | .shift _ => True
  | _ => False

/-- Belongs to the hashes. -/
def Stored : Access → Prop
  | .write _ _ _ => True
  | .input _ _ => True
  | _ => False

/-- What a part of the parse before the hashes records: bits are shifted out of range exactly where
a varint is too long. -/
structure PlainLog (data : Buffer) (log : List Access) : Prop where
  headed : ∀ x ∈ log.head?, ¬ Inner x
  unstored : ∀ x ∈ log, ¬ Stored x
  long : (∃ amount, .shift amount ∈ log ∧ 64 ≤ amount) ↔
    ∃ p left, VarintAt log p left ∧ LongVarint data p left

theorem varintAt_append (hheaded : ∀ x ∈ log'.head?, ¬ Inner x) {p left : ℕ} :
    VarintAt (log ++ log') p left ↔ VarintAt log p left ∨ VarintAt log' p left := by
  constructor
  · rintro ⟨index, next, size, hsub, hleft⟩
    rcases List.infix_append_iff_ne_nil.mp hsub with hsub | hsub |
      ⟨l₁, l₂, hne₁, hne₂, heq, hsuffix, hprefix⟩
    · exact Or.inl ⟨index, next, size, hsub, hleft⟩
    · exact Or.inr ⟨index, next, size, hsub, hleft⟩
    · -- The second part would open with what follows the byte of a varint.
      obtain ⟨x, l₂, rfl⟩ := List.exists_cons_of_ne_nil hne₂
      obtain ⟨rest, rfl⟩ := hprefix
      refine absurd ?_ (hheaded x rfl)
      match l₁, hne₁, heq with
      | [_], _, heq => cases heq; trivial
      | [_, _], _, heq => cases heq; trivial
      | _ :: _ :: _ :: l₁, _, heq => simp at heq
  · rintro (⟨index, next, size, hsub, hleft⟩ | ⟨index, next, size, hsub, hleft⟩)
    · exact ⟨index, next, size, hsub.trans (List.infix_append' [] log log'), hleft⟩
    · exact ⟨index, next, size, hsub.trans (List.suffix_append log log').isInfix, hleft⟩

theorem plainLog_nil : PlainLog data [] := by
  refine ⟨by simp, by simp, ?_⟩
  constructor
  · rintro ⟨amount, hmem, -⟩
    cases hmem
  · rintro ⟨p, left, ⟨index, next, size, hsub, -⟩, -⟩
    cases List.eq_nil_of_infix_nil hsub

theorem PlainLog.append (h : PlainLog data log) (h' : PlainLog data log') :
    PlainLog data (log ++ log') := by
  refine ⟨?_, ?_, ?_⟩
  · cases log with
    | nil => exact h'.headed
    | cons x log => exact h.headed
  · intro x hx
    rcases List.mem_append.mp hx with hx | hx
    · exact h.unstored x hx
    · exact h'.unstored x hx
  · calc (∃ amount, .shift amount ∈ log ++ log' ∧ 64 ≤ amount)
        ↔ (∃ amount, .shift amount ∈ log ∧ 64 ≤ amount) ∨
            ∃ amount, .shift amount ∈ log' ∧ 64 ≤ amount := by
          simp only [List.mem_append, or_and_right, exists_or]
      _ ↔ _ := by
          rw [h.long, h'.long]
          simp only [varintAt_append h'.headed, or_and_right, exists_or]

/-- A part of the parse that reads no varint. -/
theorem plainLog_of_unshifted (hheaded : ∀ x ∈ log.head?, ¬ Inner x)
    (hstored : ∀ x ∈ log, ¬ Stored x) (hshift : ∀ amount, .shift amount ∉ log) :
    PlainLog data log := by
  refine ⟨hheaded, hstored, ?_⟩
  constructor
  · rintro ⟨amount, hmem, -⟩
    exact absurd hmem (hshift amount)
  · rintro ⟨p, left, ⟨index, next, size, hsub, -⟩, -⟩
    exact absurd (hsub.subset (by simp)) (hshift 0)

end Logs

section Plain

variable {data : Buffer} {α β : Type} {m m' : Read α}

def Plain (data : Buffer) (m : Read α) : Prop := PlainLog data (m.run (source data)).log

theorem Plain.bind {f : α → Read β} (hm : Plain data m) (hf : ∀ a, Plain data (f a)) :
    Plain data (m >>= f) := by
  unfold Plain
  rw [Ask.run_bind]
  cases hrun : (m.run (source data)).outcome with
  | error e =>
      rw [Traced.bind_error hrun]
      exact hm
  | ok a =>
      rw [Traced.bind_ok hrun]
      exact PlainLog.append hm (hf a)

theorem plain_pure {a : α} : Plain data (pure a : Read α) := plainLog_nil

theorem plain_stop {e : Stop} : Plain data (.stop e : Read α) := plainLog_nil

theorem Plain.ite {c : Prop} [Decidable c] (ht : Plain data m) (hf : Plain data m') :
    Plain data (if c then m else m') := by
  split
  · exact ht
  · exact hf

end Plain

section Readers

variable {data : Buffer} {base size : ℕ} {word : ℕ → ℕ} {ar : BlobReader base size}

/-- A byte is read, unless the reader or the blob ends before it. -/
theorem getByte_cases (data : Buffer) (ar : BlobReader base size) :
    (size ≤ ar.index ∧ (getByte ar).run (source data) = Traced.stop .outOfRange) ∨
    (ar.index < size ∧ data[base + ar.index]? = none ∧
      (getByte ar).run (source data) = ⟨.error .undefined, [.read (base + ar.index)]⟩) ∨
    ∃ b, ar.index < size ∧ data[base + ar.index]? = some b ∧ (getByte ar).run (source data) =
      ⟨.ok (b, ⟨ar.index + 1⟩),
        [.read (base + ar.index), .move ar.index (ar.index + 1) size]⟩ := by
  unfold getByte
  by_cases hend : size ≤ ar.index
  · rw [if_pos hend]
    exact Or.inl ⟨hend, rfl⟩
  · rw [if_neg hend]
    have hlt := Nat.lt_of_not_le hend
    cases hb : data[base + ar.index]? with
    | none =>
        have hanswer : (source data).answer (base + ar.index) = .error .undefined := by
          unfold source
          dsimp only
          rw [hb]
        exact Or.inr (Or.inl ⟨hlt, rfl, Ask.run_ask_error hanswer⟩)
    | some b =>
        have hanswer : (source data).answer (base + ar.index) = .ok b := by
          unfold source
          dsimp only
          rw [hb]
        exact Or.inr (Or.inr ⟨b, hlt, rfl, Ask.run_ask hanswer⟩)

theorem plain_getByte : Plain data (getByte ar) := by
  unfold Plain
  rcases getByte_cases data ar with ⟨-, hrun⟩ | ⟨-, -, hrun⟩ | ⟨b, -, -, hrun⟩
  · rw [hrun]
    exact plainLog_nil
  · rw [hrun]
    exact plainLog_of_unshifted (by simp [Inner]) (by simp [Stored]) (by simp)
  · rw [hrun]
    exact plainLog_of_unshifted (by simp [Inner]) (by simp [Stored]) (by simp)

/-- So many bytes from the cursor on say that another one follows, and it does. -/
def Goes (data : Buffer) (ar : BlobReader base size) (n : ℕ) : Prop :=
  n < size - ar.index ∧ base + ar.index + n < data.length ∧
    ∀ j < n, ∃ b, data[base + ar.index + j]? = some b ∧ 128 ≤ b.toNat

theorem goes_zero : Goes data ar 0 ↔ ar.index < size ∧ base + ar.index < data.length := by
  unfold Goes
  constructor
  · rintro ⟨hsize, hlength, -⟩
    exact ⟨by omega, hlength⟩
  · rintro ⟨hsize, hlength⟩
    exact ⟨by omega, hlength, fun j hj => absurd hj (Nat.not_lt_zero j)⟩

theorem goes_succ {b : UInt8} (hb : data[base + ar.index]? = some b) {n : ℕ} :
    Goes data ar (n + 1) ↔
      128 ≤ b.toNat ∧ Goes data (⟨ar.index + 1⟩ : BlobReader base size) n := by
  unfold Goes
  dsimp only
  constructor
  · rintro ⟨hsize, hlength, hbytes⟩
    obtain ⟨b', hb', htop⟩ := hbytes 0 (Nat.succ_pos n)
    obtain rfl := Option.some.inj (hb.symm.trans hb')
    refine ⟨htop, by omega, by omega, fun j hj => ?_⟩
    obtain ⟨c, hc, hctop⟩ := hbytes (j + 1) (by omega)
    exact ⟨c, by rw [← hc]; congr 1; omega, hctop⟩
  · rintro ⟨htop, hsize, hlength, hbytes⟩
    refine ⟨by omega, by omega, fun j hj => ?_⟩
    cases j with
    | zero => exact ⟨b, hb, htop⟩
    | succ j =>
        obtain ⟨c, hc, hctop⟩ := hbytes j (by omega)
        exact ⟨c, by rw [← hc]; congr 1; omega, hctop⟩

/-- What one more byte of a varint records. -/
theorem varintLoop_log_of_byte {left shift result : ℕ} {b : UInt8} (hlt : ar.index < size)
    (hb : data[base + ar.index]? = some b) :
    ((varintLoop (left + 1) shift result ar).run (source data)).log =
      [.read (base + ar.index), .move ar.index (ar.index + 1) size, .shift shift] ++
        if 128 ≤ b.toNat then ((varintLoop left (shift + 7)
          (result ||| (b.toNat % 128) <<< shift % 2 ^ 64)
          (⟨ar.index + 1⟩ : BlobReader base size)).run (source data)).log else [] := by
  rcases getByte_cases data ar with ⟨hend, -⟩ | ⟨-, hnone, -⟩ | ⟨b', -, hb', hrun⟩
  · omega
  · rw [hb] at hnone
    cases hnone
  · obtain rfl := Option.some.inj (hb.symm.trans hb')
    rw [varintLoop.eq_2, Ask.run_bind, hrun, Traced.bind_ok rfl]
    dsimp only
    rw [Ask.run_bind, Ask.run_record, Traced.bind_ok rfl]
    split
    · rfl
    · rfl

theorem varintLoop_log_of_last {shift result : ℕ} {b : UInt8} (hlt : ar.index < size)
    (hb : data[base + ar.index]? = some b) :
    ((varintLoop 0 shift result ar).run (source data)).log =
      [.read (base + ar.index), .move ar.index (ar.index + 1) size, .shift shift] := by
  rcases getByte_cases data ar with ⟨hend, -⟩ | ⟨-, hnone, -⟩ | ⟨b', -, hb', hrun⟩
  · omega
  · rw [hb] at hnone
    cases hnone
  · unfold varintLoop
    rw [Ask.run_bind, hrun, Traced.bind_ok rfl]
    rfl

/-- A varint that the reader or the blob ends before. -/
theorem varintLoop_log_of_end {left shift result : ℕ}
    (h : size ≤ ar.index ∨ data[base + ar.index]? = none) :
    ((varintLoop left shift result ar).run (source data)).log = [] ∨
      ((varintLoop left shift result ar).run (source data)).log = [.read (base + ar.index)] := by
  have hgetByte : ((getByte ar).run (source data)).log = [] ∨
      ((getByte ar).run (source data)).log = [.read (base + ar.index)] := by
    rcases getByte_cases data ar with ⟨-, hrun⟩ | ⟨-, -, hrun⟩ | ⟨b, hlt, hb, -⟩
    · exact Or.inl (congrArg Traced.log hrun)
    · exact Or.inr (congrArg Traced.log hrun)
    · rcases h with hend | hnone
      · omega
      · rw [hb] at hnone
        cases hnone
  have hfails : ∃ e, ((getByte ar).run (source data)).outcome = .error e := by
    rcases getByte_cases data ar with ⟨-, hrun⟩ | ⟨-, -, hrun⟩ | ⟨b, hlt, hb, -⟩
    · exact ⟨_, congrArg Traced.outcome hrun⟩
    · exact ⟨_, congrArg Traced.outcome hrun⟩
    · rcases h with hend | hnone
      · omega
      · rw [hb] at hnone
        cases hnone
  obtain ⟨e, he⟩ := hfails
  cases left with
  | zero =>
      unfold varintLoop
      rw [Ask.run_bind, Traced.bind_error he]
      exact hgetByte
  | succ left =>
      unfold varintLoop
      rw [Ask.run_bind, Traced.bind_error he]
      exact hgetByte

/-- What the rest of a varint records: a shift out of range exactly where ten bytes in all were
not enough. -/
theorem varintLoop_log {left shift : ℕ} (hshift : shift + 7 * left = 70) (result : ℕ)
    (ar : BlobReader base size) :
    let log := ((varintLoop left shift result ar).run (source data)).log
    (∀ x ∈ log.head?, ¬ Inner x) ∧ (∀ x ∈ log, ¬ Stored x) ∧
      (∀ amount, .shift amount ∈ log → shift ≤ amount) ∧
      ((∃ amount, .shift amount ∈ log ∧ 64 ≤ amount) ↔ Goes data ar left) := by
  induction left generalizing shift result ar with
  | zero =>
      by_cases hend : size ≤ ar.index ∨ data[base + ar.index]? = none
      · have hnot : ¬ Goes data ar 0 := by
          rw [goes_zero]
          rintro ⟨hlt, hin⟩
          rcases hend with hend | hnone
          · omega
          · exact absurd (List.getElem?_eq_none_iff.mp hnone) (by omega)
        rcases @varintLoop_log_of_end data base size ar 0 shift result hend with
          hlog | hlog
        · simp [hlog, hnot]
        · simp [hlog, hnot, Inner, Stored]
      · obtain ⟨hlt, hsome⟩ := not_or.mp hend
        obtain ⟨b, hb⟩ := Option.ne_none_iff_exists'.mp hsome
        obtain ⟨hin, -⟩ := List.getElem?_eq_some_iff.mp hb
        have hgoes : Goes data ar 0 := goes_zero.mpr ⟨by omega, hin⟩
        have hlong : 64 ≤ shift := by omega
        simp [varintLoop_log_of_last (Nat.lt_of_not_le hlt) hb, hgoes, hlong, Inner, Stored]
  | succ left ih =>
      have hshort : shift < 64 := by omega
      by_cases hend : size ≤ ar.index ∨ data[base + ar.index]? = none
      · have hnot : ¬ Goes data ar (left + 1) := by
          rintro ⟨hlt, hin, -⟩
          rcases hend with hend | hnone
          · omega
          · exact absurd (List.getElem?_eq_none_iff.mp hnone) (by omega)
        rcases @varintLoop_log_of_end data base size ar (left + 1) shift result hend with
          hlog | hlog
        · simp [hlog, hnot]
        · simp [hlog, hnot, Inner, Stored]
      · obtain ⟨hlt, hsome⟩ := not_or.mp hend
        obtain ⟨b, hb⟩ := Option.ne_none_iff_exists'.mp hsome
        dsimp only
        rw [varintLoop_log_of_byte (Nat.lt_of_not_le hlt) hb, goes_succ hb]
        by_cases htop : 128 ≤ b.toNat
        · obtain ⟨-, hstored, hshifts, hgoes⟩ := @ih (shift + 7) (by omega)
            (result ||| (b.toNat % 128) <<< shift % 2 ^ 64) ⟨ar.index + 1⟩
          rw [if_pos htop, ← hgoes]
          refine ⟨by simp [Inner], ?_, ?_, ?_⟩
          · intro x hx
            rcases List.mem_append.mp hx with hx | hx
            · simp only [List.mem_cons, List.not_mem_nil, or_false] at hx
              rcases hx with rfl | rfl | rfl <;> exact fun h => h
            · exact hstored x hx
          · intro amount hmem
            rcases List.mem_append.mp hmem with hmem | hmem
            · simp at hmem
              omega
            · exact (Nat.le_add_right _ _).trans (hshifts amount hmem)
          · constructor
            · rintro ⟨amount, hmem, hlarge⟩
              refine ⟨htop, amount, (List.mem_append.mp hmem).resolve_left fun hfirst => ?_, hlarge⟩
              simp at hfirst
              omega
            · rintro ⟨-, amount, hmem, hlarge⟩
              exact ⟨amount, List.mem_append_right _ hmem, hlarge⟩
        · rw [if_neg htop]
          simp [htop, hshort, Inner, Stored]

/-- The first byte of a varint, and what follows it. -/
theorem varintAt_first {p q left index next size : ℕ} {log : List Access}
    (hheaded : ∀ x ∈ log.head?, ¬ Inner x) (hshift : .shift 0 ∉ log) :
    VarintAt ([.read q, .move index next size, .shift 0] ++ log) p left ↔
      p = q ∧ left = size - index := by
  rw [varintAt_append hheaded]
  constructor
  · rintro (⟨index', next', size', hsub, rfl⟩ | ⟨index', next', size', hsub, -⟩)
    · have heq := hsub.eq_of_length rfl
      simp only [List.cons.injEq, Access.read.injEq, Access.move.injEq] at heq
      obtain ⟨rfl, ⟨rfl, -, rfl⟩, -⟩ := heq
      exact ⟨rfl, rfl⟩
    · exact absurd (hsub.subset (by simp)) hshift
  · rintro ⟨rfl, rfl⟩
    exact Or.inl ⟨index, next, size, List.infix_rfl, rfl⟩

theorem getVarint_log_of_byte {b : UInt8} (hlt : ar.index < size)
    (hb : data[base + ar.index]? = some b) :
    ∃ rest, ((getVarint ar).run (source data)).log =
        [.read (base + ar.index), .move ar.index (ar.index + 1) size, .shift 0] ++ rest ∧
      (∀ x ∈ rest.head?, ¬ Inner x) ∧ .shift 0 ∉ rest := by
  unfold getVarint
  rw [varintLoop_log_of_byte hlt hb]
  refine ⟨_, rfl, ?_, ?_⟩
  · split
    · exact (varintLoop_log rfl _ _).1
    · simp
  · split
    · intro hmem
      exact absurd ((@varintLoop_log data base size 9 7 rfl _ _).2.2.1 0 hmem) (by omega)
    · simp

theorem plain_getVarint : Plain data (getVarint ar) := by
  unfold Plain
  by_cases hend : size ≤ ar.index ∨ data[base + ar.index]? = none
  · rcases @varintLoop_log_of_end data base size ar 10 0 0 hend with hlog | hlog
    · unfold getVarint
      rw [hlog]
      exact plainLog_nil
    · unfold getVarint
      rw [hlog]
      exact plainLog_of_unshifted (by simp [Inner]) (by simp [Stored]) (by simp)
  · obtain ⟨hlt, hsome⟩ := not_or.mp hend
    obtain ⟨b, hb⟩ := Option.ne_none_iff_exists'.mp hsome
    obtain ⟨hheaded, hstored, -, hgoes⟩ := @varintLoop_log data base size 10 0 rfl 0 ar
    refine ⟨hheaded, hstored, hgoes.trans ?_⟩
    obtain ⟨rest, hlog, hrest, hshift⟩ := getVarint_log_of_byte (Nat.lt_of_not_le hlt) hb
    simp only [hlog, varintAt_first hrest hshift]
    constructor
    · exact fun h => ⟨_, _, ⟨rfl, rfl⟩, h⟩
    · rintro ⟨p, left, ⟨rfl, rfl⟩, h⟩
      exact h

theorem plain_record {x : Access} (hinner : ¬ Inner x) (hstored : ¬ Stored x) :
    Plain data (record x) := by
  have hshift : ∀ amount, .shift amount ∉ [x] := by
    intro amount hmem
    obtain rfl := List.mem_singleton.mp hmem
    exact hinner trivial
  refine plainLog_of_unshifted ?_ ?_ hshift
  · intro y hy
    obtain rfl := Option.some.inj hy
    exact hinner
  · intro y hy
    obtain rfl := List.mem_singleton.mp hy
    exact hstored

theorem skip_log {n : ℕ} : ((skip word n ar).run (source data)).log = [.advance ar.index n] ∨
    ((skip word n ar).run (source data)).log =
      [.advance ar.index n, .move ar.index (word (ar.index + n)) size] := by
  unfold skip
  rw [Ask.run_bind, Ask.run_record, Traced.bind_ok rfl]
  split
  · exact Or.inl rfl
  · exact Or.inr rfl

theorem plain_skip {n : ℕ} : Plain data (skip word n ar) := by
  unfold Plain
  rcases @skip_log data base size word ar n with hlog | hlog
  · rw [hlog]
    exact plainLog_of_unshifted (by simp [Inner]) (by simp [Stored]) (by simp)
  · rw [hlog]
    exact plainLog_of_unshifted (by simp [Inner]) (by simp [Stored]) (by simp)

theorem plain_getSpan {n : ℕ} : Plain data (getSpan word n ar) := by
  unfold getSpan
  refine Plain.bind plain_skip fun next => ?_
  exact (plain_record (by simp [Inner]) (by simp [Stored])).bind fun _ => plain_pure

theorem plain_setOffset {value : ℕ} : Plain data (setOffset value) :=
  (plain_record (by simp [Inner]) (by simp [Stored])).bind fun _ => plain_pure

end Readers

section Fields

variable {data : Buffer} {base size : ℕ} {word : ℕ → ℕ} {coin : Coin} {t : BlockTemplate}
  {ar : BlobReader base size}

theorem plain_parseSignature : Plain data (parseSignature word coin t ar) := by
  unfold parseSignature
  refine Plain.ite (Plain.bind plain_getSpan ?_) plain_pure
  rintro ⟨minerSignature, ar⟩
  exact Plain.bind plain_getSpan fun _ => plain_pure

theorem plain_parsePricingRecord : Plain data (parsePricingRecord word coin ar) := by
  unfold parsePricingRecord
  exact Plain.ite (Plain.bind plain_getSpan fun _ => plain_pure) plain_pure

theorem plain_parseHeader : Plain data (parseHeader word ar) := by
  unfold parseHeader
  apply Plain.bind plain_getByte
  rintro ⟨majorVersion, ar⟩
  apply Plain.bind plain_getByte
  rintro ⟨minorVersion, ar⟩
  apply Plain.bind plain_getVarint
  rintro ⟨timestamp, ar⟩
  apply Plain.bind plain_getSpan
  rintro ⟨prevId, ar⟩
  exact Plain.bind plain_setOffset fun _ => plain_pure

theorem plain_parseUnlockTime {here : Bool} : Plain data (parseUnlockTime here t ar) := by
  unfold parseUnlockTime
  exact Plain.ite (Plain.bind plain_getVarint fun _ => plain_pure) plain_pure

theorem plain_parseInput : Plain data (parseInput coin t ar) := by
  unfold parseInput
  apply Plain.bind plain_getVarint
  rintro ⟨txVersion, ar⟩
  apply Plain.bind plain_parseUnlockTime
  rintro ⟨t, ar⟩
  apply Plain.bind plain_getVarint
  rintro ⟨numInputs, ar⟩
  refine Plain.ite plain_stop (Plain.bind plain_getByte ?_)
  rintro ⟨inputType, ar⟩
  refine Plain.ite plain_stop (Plain.bind plain_getVarint ?_)
  rintro ⟨height, ar⟩
  apply Plain.bind plain_getVarint
  rintro ⟨numOutputs, ar⟩
  exact Plain.ite plain_stop plain_pure

theorem plain_parseAssetType : Plain data (parseAssetType word ar) := by
  unfold parseAssetType
  apply Plain.bind plain_getVarint
  rintro ⟨assetTypeLen, ar⟩
  exact Plain.bind plain_skip fun _ => plain_getByte

theorem plain_parseOutputs (left : ℕ) : Plain data (parseOutputs word left ar) := by
  induction left generalizing ar with
  | zero => exact plain_pure
  | succ left ih =>
      unfold parseOutputs
      apply Plain.bind plain_getVarint
      rintro ⟨amount, ar⟩
      apply Plain.bind plain_getByte
      rintro ⟨outputType, ar⟩
      refine Plain.ite plain_stop (Plain.bind plain_getSpan ?_)
      rintro ⟨key, ar⟩
      exact Plain.bind plain_parseAssetType fun _ => ih

theorem plain_parseCarrot : Plain data (parseCarrot word coin t ar) := by
  unfold parseCarrot
  refine Plain.ite (Plain.bind plain_getSpan ?_) plain_pure
  rintro ⟨carrotViewTag, ar⟩
  exact Plain.bind plain_getSpan fun _ => plain_pure

theorem plain_parseViewTag : Plain data (parseViewTag word coin t ar) := by
  unfold parseViewTag
  refine Plain.ite (Plain.ite plain_stop (Plain.bind plain_parseAssetType ?_))
    (Plain.ite ?_ plain_pure)
  · rintro ⟨viewTag, ar⟩
    exact (plain_parseOutputs _).bind fun _ => plain_pure
  · exact Plain.bind plain_getByte fun _ => plain_pure

theorem plain_parseOutput : Plain data (parseOutput word coin t ar) := by
  unfold parseOutput
  apply Plain.bind plain_getVarint
  rintro ⟨amount, ar⟩
  apply Plain.bind plain_getByte
  rintro ⟨outputType, ar⟩
  refine Plain.ite plain_stop (Plain.bind plain_setOffset fun _ => Plain.bind plain_getSpan ?_)
  rintro ⟨ephPublicKey, ar⟩
  apply Plain.bind plain_parseCarrot
  rintro ⟨t, ar⟩
  apply Plain.bind plain_parseViewTag
  rintro ⟨t, ar⟩
  exact plain_parseUnlockTime

theorem plain_parseField {first : Bool} : Plain data (parseField word first t ar) := by
  unfold parseField
  apply Plain.bind plain_getVarint
  rintro ⟨tag, ar⟩
  refine Plain.ite ?_ (Plain.ite ?_ (Plain.ite ?_ plain_stop))
  · unfold setPubkeyOffset
    refine Plain.bind (Plain.ite (Plain.bind plain_setOffset fun _ => plain_pure) plain_pure)
      fun _ => ?_
    exact Plain.bind plain_skip fun _ => plain_pure
  · apply Plain.bind plain_getVarint
    rintro ⟨n, ar⟩
    exact Plain.bind plain_setOffset fun _ => Plain.bind plain_getSpan fun _ => plain_pure
  · apply Plain.bind plain_getVarint
    rintro ⟨n, ar⟩
    exact Plain.bind plain_setOffset fun _ => Plain.bind plain_getSpan fun _ => plain_pure

theorem plain_parseExtra (fuel : ℕ) {first : Bool} :
    Plain data (parseExtra word fuel first t ar) := by
  induction fuel generalizing first t ar with
  | zero => exact Plain.ite plain_stop plain_pure
  | succ fuel ih =>
      unfold parseExtra
      refine Plain.ite (Plain.bind plain_parseField ?_) plain_pure
      rintro ⟨first, t, ar⟩
      exact ih

theorem plain_parseTxExtra {fuel : ℕ} : Plain data (parseTxExtra word fuel t ar) := by
  unfold parseTxExtra
  apply Plain.bind plain_getVarint
  rintro ⟨extraSize, ar⟩
  refine Plain.bind plain_setOffset fun _ => Plain.bind plain_skip fun _ => ?_
  exact (plain_parseExtra fuel).bind fun _ => plain_pure

theorem plain_parsePrices : Plain data (parsePrices coin ar) := by
  unfold parsePrices
  refine Plain.ite (Plain.bind plain_getVarint ?_) plain_pure
  rintro ⟨height, ar⟩
  apply Plain.bind plain_getVarint
  rintro ⟨burnt, ar⟩
  exact Plain.bind plain_getVarint fun _ => plain_pure

theorem plain_parseMinerTx {fuel : ℕ} : Plain data (parseMinerTx word coin fuel t ar) := by
  unfold parseMinerTx
  refine Plain.bind plain_setOffset fun minerTxPrefixOffset => Plain.bind plain_parseInput ?_
  rintro ⟨t, ar⟩
  apply Plain.bind plain_parseOutput
  rintro ⟨t, ar⟩
  apply Plain.bind plain_parseTxExtra
  rintro ⟨t, ar⟩
  exact Plain.bind plain_parsePrices fun _ => Plain.bind plain_setOffset fun _ => plain_pure

theorem plain_parseTail {length : ℕ} : Plain data (parseTail word coin length false t ar) := by
  unfold parseTail
  apply Plain.bind plain_getByte
  rintro ⟨vinRctType, ar⟩
  refine Plain.ite plain_pure (Plain.ite plain_stop (Plain.ite plain_stop ?_))
  apply Plain.bind plain_getByte
  rintro ⟨byte, last⟩
  exact Plain.ite plain_stop (Plain.bind plain_getVarint fun _ => plain_pure)

theorem plain_parseBlob {length fuel : ℕ} :
    Plain data (parseBlob word coin length fuel false) := by
  unfold parseBlob
  apply Plain.bind plain_parseHeader
  rintro ⟨t, ar⟩
  refine Plain.bind plain_skip fun ar => Plain.bind plain_parseSignature ?_
  rintro ⟨t, ar⟩
  refine Plain.bind plain_parsePricingRecord fun ar => Plain.bind plain_parseMinerTx ?_
  rintro ⟨t, ar⟩
  exact plain_parseTail

end Fields

end XmrigProxy.BlockTemplate
