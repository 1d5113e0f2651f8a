import XmrigProxy.TemplateLeaves
import XmrigProxy.TemplateVarints

/-! Which templates are parsed safely, told by the numbers that they hold: the lengths, the bytes
of every varint, the size of the miner transaction, and the number of hashes against the bytes
that are left for them. -/
namespace XmrigProxy.BlockTemplate

open BlobReader Access
open Ask (record question)

section Measures

variable (coin : Coin) (keccak : Buffer → Hash) (data : Buffer) (hashes : Bool)

/-- Where the hashes of the other transactions stand, behind their number. -/
def hashesOffset (t : BlockTemplate) : ℕ :=
  let position := t.minerTxPrefixEndOffset + 1
  position + (varintBytes data position).length

/-- An `int` holds the length of the miner transaction. A negative one stands for almost `2 ^ 64`
bytes. -/
def PrefixFits (t : BlockTemplate) : Prop :=
  t.minerTxPrefixEndOffset - t.minerTxPrefixOffset < 2 ^ 31 ∨
    2 ^ 64 - 2 ^ 32 + t.minerTxPrefixEndOffset ≤ data.length

/-- The size of the buffer is a product in 64 bits. Either it is too large for a buffer, or there is
a place for the coinbase and for each of the counted hashes that the blob still holds. -/
def HashesFit (t : BlockTemplate) : Prop :=
  let index := coinbaseTxIndex coin t
  let places := (index + t.numHashes + 1) % 2 ^ 59
  let held := (data.length - hashesOffset data t) / kHashSize
  2 ^ 58 ≤ places ∨ PrefixFits data t ∧ index + min t.numHashes held < places

/-- A Townforge template with a game update is not looked into. -/
def Counted (t : BlockTemplate) : Prop := ¬ (coin = .TOWNFORGE ∧ t.height % 720 = 0)

/-- What an unbounded cursor meets: no length reaches the end of `size_t`, no varint has more than
ten bytes, and what is hashed and stored fits. -/
structure Measured : Prop where
  lengths : ∀ index n, .advance index n ∈ (layout coin keccak data hashes).log → index + n < 2 ^ 64
  varints : ∀ p left, VarintAt (layout coin keccak data false).log p left →
    ¬ LongVarint data p left
  hashes : hashes = true → ∀ t, (layout coin keccak data false).outcome = .ok t →
    Counted coin t → HashesFit coin data t

end Measures

section Stores

variable {coin : Coin} {data : Buffer} {base size : ℕ} {t : BlockTemplate}
  {ar : BlobReader base size}
  {log log' : List Access}

theorem fits_iff : (∀ x ∈ log, x.Fits data.length) ↔
    (∀ index n, .advance index n ∈ log → index + n < 2 ^ 64) ∧
      (∀ amount, .shift amount ∈ log → amount < 64) ∧ ∀ x ∈ log, Stored x → x.Fits data.length := by
  constructor
  · exact fun h => ⟨fun index n hmem => h _ hmem, fun amount hmem => h _ hmem, fun x hx _ => h x hx⟩
  · rintro ⟨hlengths, hshifts, hstored⟩ x hx
    cases x with
    | advance index n => exact hlengths index n hx
    | shift amount => exact hshifts amount hx
    | input start n => exact hstored _ hx trivial
    | write position n capacity => exact hstored _ hx trivial
    | move src dst size => trivial
    | read position => trivial
    | span start n => trivial

/-- Everything that is hashed or stored fits. -/
def Kept (data : Buffer) (log : List Access) : Prop := ∀ x ∈ log, Stored x → x.Fits data.length

theorem kept_append : Kept data (log ++ log') ↔ Kept data log ∧ Kept data log' := by
  unfold Kept
  simp only [List.mem_append, or_imp, forall_and]

theorem kept_of_unstored (h : ∀ x ∈ log, ¬ Stored x) : Kept data log :=
  fun x hx hstored => absurd hstored (h x hx)

theorem kept_write {position n capacity : ℕ} :
    Kept data [.write position n capacity] ↔ position + n ≤ capacity := by
  simp [Kept, Stored, Fits]

theorem kept_input {start n : ℕ} : Kept data [.input start n] ↔ start + n ≤ data.length := by
  simp [Kept, Stored, Fits]

/-- Only the first part may store what does not fit. -/
theorem kept_bind {α β : Type} {m : Read α} {f : α → Read β}
    (hf : ∀ a, Kept data ((f a).run (source data)).log) :
    Kept data ((m >>= f).run (source data)).log ↔ Kept data (m.run (source data)).log := by
  rw [Ask.run_bind]
  cases hm : (m.run (source data)).outcome with
  | ok a => rw [Traced.bind_ok hm, kept_append, and_iff_left (hf a)]
  | error e => rw [Traced.bind_error hm]

theorem getSpan_cases (data : Buffer) (n : ℕ) (ar : BlobReader base size) :
    (size < ar.index + n ∧
      (getSpan id n ar).run (source data) = ⟨.error .outOfRange, [.advance ar.index n]⟩) ∨
    (ar.index + n ≤ size ∧ (getSpan id n ar).run (source data) =
      ⟨.ok (⟨base + ar.index, n⟩, ⟨ar.index + n⟩),
        [.advance ar.index n, .move ar.index (ar.index + n) size, .span (base + ar.index) n]⟩) := by
  unfold getSpan skip
  by_cases hend : size < ar.index + n
  · simp only [id_eq, if_pos hend]
    exact Or.inl ⟨hend, rfl⟩
  · simp only [id_eq, if_neg hend]
    exact Or.inr ⟨Nat.le_of_not_lt hend, rfl⟩

theorem run_store (position n capacity : ℕ) : (store position n capacity).run (source data) =
    ⟨if position + n ≤ capacity then .ok () else .error .undefined,
      [.write position n capacity]⟩ := by
  unfold store
  split
  · rfl
  · rfl

theorem run_hashInput (start stop : ℕ) : (hashInput data.length start stop).run (source data) =
    ⟨if start + inputLength start stop ≤ data.length then .ok () else .error .undefined,
      [.input start (inputLength start stop)]⟩ := by
  unfold hashInput
  dsimp only
  split
  · rfl
  · rfl

/-- A result that is only put together adds nothing to what was recorded. -/
theorem log_bind_pure {α β : Type} (m : Read α) (f : α → β) :
    ((m >>= fun a => pure (f a)).run (source data)).log = (m.run (source data)).log := by
  rw [Ask.run_bind]
  cases hm : (m.run (source data)).outcome with
  | ok a =>
      rw [Traced.bind_ok hm]
      exact List.append_nil _
  | error e => rw [Traced.bind_error hm]

/-- The loop stores as many hashes as there are, and no more than the blob holds. -/
theorem kept_parseHashes {places left i : ℕ} (hi : i ≤ places) :
    Kept data ((parseHashes id (places * kHashSize) left i ar).run (source data)).log ↔
      i + min left ((size - ar.index) / kHashSize) ≤ places := by
  induction left generalizing i ar with
  | zero =>
      refine iff_of_true (kept_of_unstored fun x hx => absurd hx List.not_mem_nil) ?_
      rwa [Nat.zero_min, Nat.add_zero]
  | succ left ih =>
      unfold parseHashes
      rcases getSpan_cases data kHashSize ar with ⟨hend, hrun⟩ | ⟨hle, hrun⟩
      · rw [Ask.run_bind, hrun, Traced.bind_error rfl]
        apply iff_of_true (kept_of_unstored (by simp [Stored]))
        have hnone : (size - ar.index) / kHashSize = 0 := by
          unfold kHashSize at hend ⊢
          omega
        rwa [hnone, Nat.min_zero, Nat.add_zero]
      · have hheld : (size - ar.index) / kHashSize =
            (size - (ar.index + kHashSize)) / kHashSize + 1 := by
          unfold kHashSize at hle ⊢
          omega
        rw [Ask.run_bind, hrun, Traced.bind_ok rfl, kept_append, hheld, Nat.add_min_add_right]
        dsimp only
        rw [and_iff_right (kept_of_unstored (by simp [Stored])), Ask.run_bind, run_store]
        by_cases hroom : i < places
        · have hfits : i * kHashSize + kHashSize ≤ places * kHashSize := by
            rw [← Nat.succ_mul]
            exact Nat.mul_le_mul_right _ hroom
          rw [if_pos hfits, Traced.bind_ok rfl, kept_append,
            and_iff_right (kept_write.mpr hfits), log_bind_pure, ih (Nat.succ_le_of_lt hroom)]
          dsimp only
          rw [Nat.succ_add_eq_add_succ, Nat.succ_eq_add_one]
        · have hout : ¬ i * kHashSize + kHashSize ≤ places * kHashSize := by
            rw [← Nat.succ_mul]
            exact fun hle => hroom (Nat.le_of_mul_le_mul_right hle (by decide))
          rw [if_neg hout, Traced.bind_error rfl, kept_write]
          refine iff_of_false hout fun hle => hroom ?_
          exact (Nat.lt_add_of_pos_right (Nat.succ_pos _)).trans_le hle

/-- The places for the tree layers and the tree root are there whenever the coinbase has one. -/
theorem kept_parseFcmp {places : ℕ} (hplaces : coinbaseTxIndex coin t < places) :
    Kept data ((parseFcmp id coin (places * kHashSize) t ar).run (source data)).log := by
  unfold parseFcmp
  unfold coinbaseTxIndex at hplaces
  split
  · next hfcmp =>
    rw [if_pos hfcmp] at hplaces
    have hlayers : 0 + 1 ≤ places * kHashSize := by
      unfold kHashSize
      omega
    have hroot : kHashSize + kHashSize ≤ places * kHashSize := by
      unfold kHashSize
      omega
    rw [Ask.run_bind]
    rcases getByte_cases data ar with ⟨-, hrun⟩ | ⟨-, -, hrun⟩ | ⟨b, -, -, hrun⟩
    · rw [hrun]
      exact kept_of_unstored fun x hx => absurd hx List.not_mem_nil
    · rw [hrun]
      exact kept_of_unstored (by simp [Stored, Traced.bind_error])
    · rw [hrun, Traced.bind_ok rfl]
      refine kept_append.mpr ⟨kept_of_unstored (by simp [Stored]), ?_⟩
      dsimp only
      rw [Ask.run_bind]
      rcases getSpan_cases data kHashSize (⟨ar.index + 1⟩ : BlobReader base size) with
        ⟨-, hrun⟩ | ⟨-, hrun⟩
      · rw [hrun, Traced.bind_error rfl]
        exact kept_of_unstored (by simp [Stored])
      · rw [hrun, Traced.bind_ok rfl]
        refine kept_append.mpr ⟨kept_of_unstored (by simp [Stored]), ?_⟩
        dsimp only
        rw [Ask.run_bind, run_store, if_pos hlayers, Traced.bind_ok rfl]
        refine kept_append.mpr ⟨kept_write.mpr hlayers, ?_⟩
        rw [Ask.run_bind, run_store, if_pos hroot, Traced.bind_ok rfl]
        refine kept_append.mpr ⟨kept_write.mpr hroot, ?_⟩
        exact kept_of_unstored fun x hx => absurd hx List.not_mem_nil
  · exact kept_of_unstored fun x hx => absurd hx List.not_mem_nil

theorem prefixFits_iff (hle : t.minerTxPrefixOffset ≤ t.minerTxPrefixEndOffset)
    (hword : t.minerTxPrefixEndOffset < 2 ^ 32) (hend : t.minerTxPrefixEndOffset ≤ data.length) :
    PrefixFits data t ↔ t.minerTxPrefixOffset +
      inputLength t.minerTxPrefixOffset t.minerTxPrefixEndOffset ≤ data.length := by
  unfold PrefixFits inputLength
  dsimp only
  rcases Nat.lt_or_ge (t.minerTxPrefixEndOffset - t.minerTxPrefixOffset) (2 ^ 31) with hlt | hge
  · have hmod : ((t.minerTxPrefixEndOffset : ℤ) - t.minerTxPrefixOffset).bmod (2 ^ 32) =
        (t.minerTxPrefixEndOffset : ℤ) - t.minerTxPrefixOffset := by
      refine Int.bmod_eq_of_le ?_ ?_
      · omega
      · omega
    rw [hmod, if_pos (by omega)]
    apply iff_of_true (Or.inl hlt)
    omega
  · have hmod : ((t.minerTxPrefixEndOffset : ℤ) - t.minerTxPrefixOffset).bmod (2 ^ 32) =
        (t.minerTxPrefixEndOffset : ℤ) - t.minerTxPrefixOffset - 2 ^ 32 := by
      rw [Int.bmod_def]
      omega
    rw [hmod, if_neg (by omega)]
    omega

/-- Either there is no such buffer, or the miner transaction and everything that is stored fit. -/
theorem kept_parseRootHashes (hle : t.minerTxPrefixOffset ≤ t.minerTxPrefixEndOffset)
    (hword : t.minerTxPrefixEndOffset < 2 ^ 32) (hend : t.minerTxPrefixEndOffset ≤ data.length)
    {ar : BlobReader 0 data.length} (hindex : ar.index = hashesOffset data t) :
    Kept data ((parseRootHashes id coin data.length t ar).run (source data)).log ↔
      HashesFit coin data t := by
  have hcapacity : (coinbaseTxIndex coin t + t.numHashes + 1) % 2 ^ 64 * kHashSize % 2 ^ 64 =
      (coinbaseTxIndex coin t + t.numHashes + 1) % 2 ^ 59 * kHashSize := by
    unfold kHashSize
    omega
  unfold parseRootHashes HashesFit resize
  dsimp only
  rw [hcapacity, ← hindex, prefixFits_iff hle hword hend]
  generalize (coinbaseTxIndex coin t + t.numHashes + 1) % 2 ^ 59 = places
  by_cases hlarge : 2 ^ 58 ≤ places
  · have hrefused : 2 ^ 63 ≤ places * kHashSize := by
      unfold kHashSize
      omega
    rw [if_pos hrefused]
    exact iff_of_true (kept_of_unstored fun x hx => absurd hx List.not_mem_nil) (Or.inl hlarge)
  · have hmade : ¬ 2 ^ 63 ≤ places * kHashSize := by
      unfold kHashSize
      omega
    rw [if_neg hmade, or_iff_right hlarge]
    change Kept data ((hashInput data.length t.minerTxPrefixOffset t.minerTxPrefixEndOffset >>=
      fun _ => _).run (source data)).log ↔ _
    rw [Ask.run_bind, run_hashInput]
    by_cases hinput : t.minerTxPrefixOffset +
        inputLength t.minerTxPrefixOffset t.minerTxPrefixEndOffset ≤ data.length
    · rw [if_pos hinput, Traced.bind_ok rfl, kept_append, and_iff_right (kept_input.mpr hinput),
        and_iff_right hinput, Ask.run_bind, run_store]
      by_cases hroom : coinbaseTxIndex coin t < places
      · have hfits : coinbaseTxIndex coin t * kHashSize + kHashSize ≤ places * kHashSize := by
          rw [← Nat.succ_mul]
          exact Nat.mul_le_mul_right _ hroom
        rw [if_pos hfits, Traced.bind_ok rfl, kept_append, and_iff_right (kept_write.mpr hfits)]
        refine (kept_bind fun p => ?_).trans ((kept_parseHashes hroom).trans ?_)
        · refine (kept_bind fun p => ?_).mpr (kept_parseFcmp hroom)
          exact kept_of_unstored fun x hx => absurd hx List.not_mem_nil
        · omega
      · have hout : ¬ coinbaseTxIndex coin t * kHashSize + kHashSize ≤ places * kHashSize := by
          rw [← Nat.succ_mul]
          exact fun hle => hroom (Nat.le_of_mul_le_mul_right hle (by decide))
        rw [if_neg hout, Traced.bind_error rfl, kept_write]
        exact iff_of_false hout fun h => hroom ((Nat.le_add_right _ _).trans_lt h)
    · rw [if_neg hinput, Traced.bind_error rfl, kept_input]
      exact iff_of_false hinput fun h => hinput h.1

end Stores

section Shifts

variable {coin : Coin} {data : Buffer} {α β : Type} {m m' : Read α} {base size : ℕ}
  {t : BlockTemplate} {ar : BlobReader base size}

/-- Reads no varint. -/
def Unshifted (data : Buffer) (m : Read α) : Prop :=
  ∀ amount, .shift amount ∉ (m.run (source data)).log

theorem Unshifted.bind {f : α → Read β} (hm : Unshifted data m) (hf : ∀ a, Unshifted data (f a)) :
    Unshifted data (m >>= f) := by
  intro amount hmem
  rw [Ask.run_bind] at hmem
  cases hrun : (m.run (source data)).outcome with
  | error e =>
      rw [Traced.bind_error hrun] at hmem
      exact hm amount hmem
  | ok a =>
      rw [Traced.bind_ok hrun] at hmem
      rcases List.mem_append.mp hmem with hmem | hmem
      · exact hm amount hmem
      · exact hf a amount hmem

theorem unshifted_pure {a : α} : Unshifted data (pure a : Read α) :=
  fun _ hmem => absurd hmem List.not_mem_nil

theorem unshifted_stop {e : Stop} : Unshifted data (.stop e : Read α) :=
  fun _ hmem => absurd hmem List.not_mem_nil

theorem Unshifted.ite {c : Prop} [Decidable c] (ht : Unshifted data m) (hf : Unshifted data m') :
    Unshifted data (if c then m else m') := by
  split
  · exact ht
  · exact hf

theorem unshifted_record {x : Access} (hx : ∀ amount, x ≠ .shift amount) :
    Unshifted data (record x) :=
  fun amount hmem => hx amount (List.mem_singleton.mp hmem).symm

theorem unshifted_getByte : Unshifted data (getByte ar) := by
  intro amount hmem
  rcases getByte_cases data ar with ⟨-, hrun⟩ | ⟨-, -, hrun⟩ | ⟨b, -, -, hrun⟩
  · rw [hrun] at hmem
    cases hmem
  · rw [hrun] at hmem
    simp at hmem
  · rw [hrun] at hmem
    simp at hmem

theorem unshifted_getSpan {n : ℕ} : Unshifted data (getSpan id n ar) := by
  intro amount hmem
  rcases getSpan_cases data n ar with ⟨-, hrun⟩ | ⟨-, hrun⟩
  · rw [hrun] at hmem
    simp at hmem
  · rw [hrun] at hmem
    simp at hmem

theorem unshifted_store {position n capacity : ℕ} : Unshifted data (store position n capacity) :=
  Unshifted.bind (unshifted_record (by simp)) fun _ => Unshifted.ite unshifted_pure unshifted_stop

theorem unshifted_parseHashes (capacity left i : ℕ) :
    Unshifted data (parseHashes id capacity left i ar) := by
  induction left generalizing i ar with
  | zero => exact unshifted_pure
  | succ left ih =>
      unfold parseHashes
      apply Unshifted.bind unshifted_getSpan
      rintro ⟨h, ar⟩
      refine Unshifted.bind unshifted_store fun _ => ?_
      exact Unshifted.bind (ih (i + 1)) fun _ => unshifted_pure

/-- No varint is read among the hashes. -/
theorem unshifted_parseRootHashes {length : ℕ} :
    Unshifted data (parseRootHashes id coin length t ar) := by
  unfold parseRootHashes
  refine Unshifted.bind (Unshifted.ite unshifted_stop unshifted_pure) fun _ => ?_
  refine Unshifted.bind (Unshifted.bind (unshifted_record (by simp)) fun _ =>
    Unshifted.ite unshifted_pure unshifted_stop) fun _ => ?_
  refine Unshifted.bind unshifted_store fun _ => ?_
  apply Unshifted.bind (unshifted_parseHashes _ _ _)
  rintro ⟨spans, ar⟩
  refine Unshifted.bind ?_ fun _ => unshifted_pure
  unfold parseFcmp
  refine Unshifted.ite (Unshifted.bind unshifted_getByte ?_) unshifted_pure
  rintro ⟨fcmpTreeLayers, ar⟩
  apply Unshifted.bind unshifted_getSpan
  rintro ⟨fcmpTreeRoot, ar⟩
  exact Unshifted.bind unshifted_store fun _ => Unshifted.bind unshifted_store fun _ =>
    unshifted_pure

end Shifts

section Blob

variable {coin : Coin} {data : Buffer} {t : BlockTemplate}

/-- A parse without and one with the hashes: they are the same, or the first one found the number of
the hashes and the second one goes on behind it. -/
def Continues (coin : Coin) (data : Buffer)
    (f h : Traced Stop Access (BlockTemplate × Option (List Span))) : Prop :=
  (h.log = f.log ∧ ∀ r, f.outcome = .ok r → ¬ Counted coin r.1) ∨
    ∃ (t : BlockTemplate) (ar : BlobReader 0 data.length), f.outcome = .ok (t, none) ∧
      Counted coin t ∧ ar.index = hashesOffset data t ∧
      t.minerTxPrefixOffset ≤ t.minerTxPrefixEndOffset ∧ t.minerTxPrefixEndOffset < 2 ^ 32 ∧
      t.minerTxPrefixEndOffset ≤ data.length ∧
      h.log = f.log ++ ((parseRootHashes id coin data.length t ar).run (source data)).log

theorem Continues.bind {α : Type} {m : Read α} {f h : α → Read (BlockTemplate × Option (List Span))}
    (hf : ∀ a, (m.run (source data)).outcome = .ok a →
      Continues coin data ((f a).run (source data)) ((h a).run (source data))) :
    Continues coin data ((m >>= f).run (source data)) ((m >>= h).run (source data)) := by
  rw [Ask.run_bind, Ask.run_bind]
  cases hm : (m.run (source data)).outcome with
  | error e =>
      rw [Traced.bind_error hm, Traced.bind_error hm]
      exact Or.inl ⟨rfl, fun r hr => by cases hr⟩
  | ok a =>
      rw [Traced.bind_ok hm, Traced.bind_ok hm]
      rcases hf a hm with ⟨hlog, hnot⟩ | ⟨t, ar, hok, hcounted, hat, hle, hword, hend, hlog⟩
      · exact Or.inl ⟨congrArg ((m.run (source data)).log ++ ·) hlog, hnot⟩
      · refine Or.inr ⟨t, ar, hok, hcounted, hat, hle, hword, hend, ?_⟩
        dsimp only
        rw [hlog, List.append_assoc]

theorem continues_stop (e : Stop) : Continues coin data
    ((.stop e : Read (BlockTemplate × Option (List Span))).run (source data))
    ((.stop e : Read (BlockTemplate × Option (List Span))).run (source data)) :=
  Or.inl ⟨rfl, fun r hr => by cases hr⟩

theorem Continues.ite {c : Prop} [Decidable c]
    {m m' h h' : Read (BlockTemplate × Option (List Span))}
    (ht : c → Continues coin data (m.run (source data)) (h.run (source data)))
    (hf : ¬ c → Continues coin data (m'.run (source data)) (h'.run (source data))) :
    Continues coin data ((if c then m else m').run (source data))
      ((if c then h else h').run (source data)) := by
  by_cases hc : c
  · rw [if_pos hc, if_pos hc]
    exact ht hc
  · rw [if_neg hc, if_neg hc]
    exact hf hc

/-- The prefix of the miner transaction ends where the number of the hashes is looked for. -/
theorem continues_parseTail {ar : BlobReader 0 data.length}
    (hstart : t.minerTxPrefixOffset ≤ ar.index)
    (hend : t.minerTxPrefixEndOffset = ar.index % 2 ^ 32) :
    Continues coin data ((parseTail id coin data.length false t ar).run (source data))
      ((parseTail id coin data.length true t ar).run (source data)) := by
  unfold parseTail
  apply Continues.bind
  rintro ⟨vinRctType, ar₁⟩ hbyte
  obtain ⟨hlt, hnext⟩ : ar.index < data.length ∧ ar₁.index = ar.index + 1 := by
    rcases getByte_cases data ar with ⟨-, hrun⟩ | ⟨-, -, hrun⟩ | ⟨b, hlt, -, hrun⟩
    · rw [hrun] at hbyte
      cases hbyte
    · rw [hrun] at hbyte
      cases hbyte
    · rw [hrun] at hbyte
      cases hbyte
      exact ⟨hlt, rfl⟩
  refine Continues.ite (fun hearly => ?_) fun hcounted => ?_
  · exact Or.inl ⟨rfl, fun r hr => by cases hr; exact not_not.mpr hearly⟩
  refine Continues.ite (fun _ => continues_stop _) fun _ => ?_
  refine Continues.ite (fun _ => continues_stop _) fun hplace => ?_
  have hplace : ar₁.index = t.minerTxPrefixEndOffset + 1 := not_not.mp hplace
  apply Continues.bind
  rintro ⟨byte, last⟩ -
  refine Continues.ite (fun _ => continues_stop _) fun _ => ?_
  unfold parseRoot
  apply Continues.bind
  rintro ⟨numHashes, ar₂⟩ hcount
  obtain ⟨-, hat, -⟩ := gives_getVarint ar₁ _ hcount
  dsimp only at hat ⊢
  rw [if_neg Bool.false_ne_true, if_pos rfl]
  refine Or.inr ⟨{ t with numHashes }, ar₂, rfl, hcounted, ?_, ?_, ?_, ?_, rfl⟩
  · rw [hat, Nat.zero_add, hplace]
    rfl
  · change t.minerTxPrefixOffset ≤ t.minerTxPrefixEndOffset
    omega
  · change t.minerTxPrefixEndOffset < 2 ^ 32
    omega
  · change t.minerTxPrefixEndOffset ≤ data.length
    omega

theorem extra_keeps_prefix {base size fuel : ℕ} {first : Bool} {ar : BlobReader base size}
    {t' : BlockTemplate} (hindex : ar.index ≤ size)
    (h : ((parseExtra id fuel first t ar).run (source data)).outcome = .ok t') :
    t'.minerTxPrefixOffset = t.minerTxPrefixOffset := by
  induction fuel generalizing first t ar with
  | zero =>
      unfold parseExtra at h
      split at h
      · cases h
      · cases h
        rfl
  | succ fuel ih =>
      unfold parseExtra at h
      split at h
      · obtain ⟨⟨first', t₁, ar₁⟩, hfield, hrest⟩ := outcome_bind h
        obtain ⟨-, htop, -, hkeeps⟩ :=
          scans_parseField first ar (Nat.add_le_add_left hindex base) _ hfield
        exact (ih (Nat.le_of_add_le_add_left htop) hrest).trans hkeeps.minerTxPrefixOffset
      · cases h
        rfl

/-- The prefix of the miner transaction starts where the cursor was, in 32 bits, and ends where it
is then. -/
theorem prefix_of_parseMinerTx {fuel : ℕ} {ar : BlobReader 0 data.length}
    (hindex : ar.index ≤ data.length) {r : BlockTemplate × BlobReader 0 data.length}
    (h : ((parseMinerTx id coin fuel t ar).run (source data)).outcome = .ok r) :
    r.1.minerTxPrefixOffset ≤ r.2.index ∧ r.1.minerTxPrefixEndOffset = r.2.index % 2 ^ 32 := by
  have htop : position ar ≤ 0 + data.length := Nat.add_le_add_left hindex 0
  obtain ⟨prefixOffset, hprefix, hrest⟩ := outcome_bind h
  have hat : prefixOffset ≤ ar.index := by
    cases hprefix
    exact Nat.mod_le _ _
  obtain ⟨⟨t₁, ar₁⟩, hinput, hrest⟩ := outcome_bind hrest
  obtain ⟨hle₁, htop₁, -, hkeeps₁⟩ := scans_parseInput ar htop _ hinput
  obtain ⟨⟨t₂, ar₂⟩, houtput, hrest⟩ := outcome_bind hrest
  obtain ⟨hle₂, htop₂, -, hkeeps₂⟩ := scans_parseOutput ar₁ htop₁ _ houtput
  obtain ⟨⟨t₃, ar₃⟩, hextra, hrest⟩ := outcome_bind hrest
  obtain ⟨⟨extraSize, ar₄⟩, hsize, hfields⟩ := outcome_bind hextra
  obtain ⟨hle₄, htop₄, -, -⟩ := scans_getVarint ar₂ htop₂ _ hsize
  obtain ⟨offset, -, hfields⟩ := outcome_bind hfields
  obtain ⟨ar₅, hskip, hfields⟩ := outcome_bind hfields
  obtain ⟨hindex₅, hle₅, -⟩ := skip_unread extraSize ar₄ hskip
  obtain ⟨t₄, hloop, hfields⟩ := outcome_bind hfields
  have hkeeps₄ := extra_keeps_prefix (Nat.zero_le _) hloop
  cases hfields
  obtain ⟨ar₆, hprices, hrest⟩ := outcome_bind hrest
  obtain ⟨hle₆, -, -, -⟩ := scans_parsePrices ar₃ (Nat.add_le_add_left hle₅ 0) _ hprices
  obtain ⟨endOffset, hend, hrest⟩ := outcome_bind hrest
  cases hrest
  cases hend
  refine ⟨?_, rfl⟩
  have hkept : t₃.minerTxPrefixOffset = prefixOffset :=
    hkeeps₄.trans (hkeeps₂.minerTxPrefixOffset.trans hkeeps₁.minerTxPrefixOffset)
  change t₃.minerTxPrefixOffset ≤ ar₆.index
  simp only [position_zero] at hle₁ hle₂ hle₄ hle₆
  omega

theorem continues_parseBlob (fuel : ℕ) : Continues coin data
    ((parseBlob id coin data.length fuel false).run (source data))
    ((parseBlob id coin data.length fuel true).run (source data)) := by
  unfold parseBlob
  apply Continues.bind
  rintro ⟨t₁, ar₁⟩ hheader
  refine Continues.bind fun ar₂ hskip => ?_
  obtain ⟨-, hle₂, -⟩ := skip_unread kNonceSize ar₁ hskip
  apply Continues.bind
  rintro ⟨t₃, ar₃⟩ hsignature
  obtain ⟨-, htop₃, -, -⟩ :=
    scans_parseSignature ar₂ (Nat.add_le_add_left hle₂ 0) _ hsignature
  refine Continues.bind fun ar₄ hpricing => ?_
  obtain ⟨-, htop₄, -, -⟩ := scans_parsePricingRecord ar₃ htop₃ _ hpricing
  apply Continues.bind
  rintro ⟨t₅, ar₅⟩ htx
  obtain ⟨hstart, hend⟩ := prefix_of_parseMinerTx (Nat.le_of_add_le_add_left htop₄) htx
  exact continues_parseTail hstart hend

end Blob

section Safety

variable {coin : Coin} {keccak : Buffer → Hash} {data : Buffer} {hashes : Bool} {t : BlockTemplate}

theorem layout_log (hmin : ¬ data.length < kMinSize) : (layout coin keccak data hashes).log =
    ((parseBlob id coin data.length data.length hashes).run (source data)).log := by
  unfold layout
  rw [if_neg hmin, ← log_bind_pure _ (withRoot coin keccak data), Ask.run_bind]
  rfl

theorem layout_short (hmin : data.length < kMinSize) :
    layout coin keccak data hashes = Traced.stop .rejected := by
  unfold layout
  rw [if_pos hmin]

theorem layout_outcome (hmin : ¬ data.length < kMinSize)
    (h : ((parseBlob id coin data.length data.length false).run (source data)).outcome =
      .ok (t, none)) : (layout coin keccak data false).outcome = .ok t := by
  unfold layout
  rw [if_neg hmin, Traced.bind_ok h]
  rfl

theorem layout_outcome_ok (hmin : ¬ data.length < kMinSize)
    (h : (layout coin keccak data false).outcome = .ok t) :
    ∃ r, ((parseBlob id coin data.length data.length false).run (source data)).outcome = .ok r ∧
      t = withRoot coin keccak data r := by
  unfold layout at h
  rw [if_neg hmin] at h
  obtain ⟨r, hr, ht⟩ := Traced.outcome_bind_ok h
  cases ht
  exact ⟨r, hr, rfl⟩

theorem plainLog_layout : PlainLog data (layout coin keccak data false).log := by
  by_cases hmin : data.length < kMinSize
  · rw [layout_short hmin]
    exact plainLog_nil
  · rw [layout_log hmin]
    exact plain_parseBlob

/-- Bits are shifted out of range exactly where a varint is too long. -/
theorem varints_iff :
    (∀ amount, .shift amount ∈ (layout coin keccak data false).log → amount < 64) ↔
      ∀ p left, VarintAt (layout coin keccak data false).log p left →
        ¬ LongVarint data p left := by
  constructor
  · intro h p left hat hlong
    obtain ⟨amount, hmem, hlarge⟩ := plainLog_layout.long.mpr ⟨p, left, hat, hlong⟩
    exact absurd (h amount hmem) (Nat.not_lt_of_le hlarge)
  · intro h amount hmem
    by_contra hlarge
    obtain ⟨p, left, hat, hlong⟩ :=
      plainLog_layout.long.mp ⟨amount, hmem, Nat.le_of_not_lt hlarge⟩
    exact h p left hat hlong

/-- What a parse with the hashes records is what one without them does, and what fits of the
hashes. -/
theorem hashes_iff : ((∀ amount, .shift amount ∈ (layout coin keccak data true).log → amount < 64) ↔
      ∀ amount, .shift amount ∈ (layout coin keccak data false).log → amount < 64) ∧
    (Kept data (layout coin keccak data true).log ↔
      ∀ t, (layout coin keccak data false).outcome = .ok t → Counted coin t →
        HashesFit coin data t) := by
  by_cases hmin : data.length < kMinSize
  · rw [layout_short hmin, layout_short hmin]
    refine ⟨Iff.rfl, iff_of_true (fun x hx => absurd hx List.not_mem_nil) fun t ht => ?_⟩
    cases ht
  have hkept : Kept data (layout coin keccak data false).log :=
    kept_of_unstored plainLog_layout.unstored
  rw [layout_log hmin] at hkept ⊢
  rw [layout_log hmin]
  rcases @continues_parseBlob coin data data.length with
    ⟨hlog, hnot⟩ | ⟨t, ar, hok, hcounted, hat, hle, hword, hend, hlog⟩
  · rw [hlog]
    refine ⟨Iff.rfl, iff_of_true hkept fun t ht hcounted => ?_⟩
    obtain ⟨⟨t', spans⟩, hr, rfl⟩ := layout_outcome_ok hmin ht
    refine absurd ?_ (hnot _ hr)
    cases spans with
    | none => exact hcounted
    | some spans => exact hcounted
  · rw [hlog]
    constructor
    · refine forall_congr' fun amount => ?_
      rw [List.mem_append, or_iff_left (unshifted_parseRootHashes amount)]
    · rw [kept_append, and_iff_right hkept, kept_parseRootHashes hle hword hend hat]
      constructor
      · intro hfit t' ht' _
        obtain rfl := Except.ok.inj ((layout_outcome hmin hok).symm.trans ht')
        exact hfit
      · exact fun h => h t (layout_outcome hmin hok) hcounted

/-- A template is parsed safely exactly when an unbounded cursor meets no length that reaches the
end of `size_t` and no varint of more than ten bytes, and, where the hashes are asked for, their
buffer has a place for each that is there and an `int` holds the length of the miner
transaction. -/
theorem parsesSafely_iff_measured (coin : Coin) (keccak : Buffer → Hash) (data : Buffer)
    (hashes : Bool) :
    ParsesSafely coin keccak data hashes ↔ Measured coin keccak data hashes := by
  rw [parsesSafely_iff, fits_iff]
  cases hashes with
  | false =>
      have hkept : Kept data (layout coin keccak data false).log :=
        kept_of_unstored plainLog_layout.unstored
      rw [varints_iff]
      constructor
      · rintro ⟨hlengths, hvarints, -⟩
        exact ⟨hlengths, hvarints, fun h => absurd h Bool.false_ne_true⟩
      · rintro ⟨hlengths, hvarints, -⟩
        exact ⟨hlengths, hvarints, hkept⟩
  | true =>
      obtain ⟨hshifts, hstores⟩ := @hashes_iff coin keccak data
      rw [hshifts, varints_iff]
      constructor
      · rintro ⟨hlengths, hvarints, hkept⟩
        exact ⟨hlengths, hvarints, fun _ => hstores.mp hkept⟩
      · rintro ⟨hlengths, hvarints, hfit⟩
        exact ⟨hlengths, hvarints, hstores.mpr (hfit rfl)⟩

end Safety

end XmrigProxy.BlockTemplate
