import XmrigProxy.BlockTemplate

/-! Which templates are parsed safely. The parse is compared with one whose cursor cannot wrap:
as long as that one meets no length that would, the two are the same, and the cursor only moves
forward inside the blob; the first such length sends the real cursor back. -/
namespace XmrigProxy

namespace Access

/-- The cursor moves forward inside its blob, and everything read, recorded or written is inside
the blob or the buffer. -/
def Safe (length : ℕ) : Access → Prop
  | .advance _ _ => True
  | .move src dst size => src ≤ dst ∧ dst ≤ size
  | .read position => position < length
  | .span start n => start + n ≤ length
  | .input start n => start + n ≤ length
  | .shift amount => amount < 64
  | .write position n capacity => position + n ≤ capacity

/-- Lengths do not reach the end of `size_t`, varints have ten bytes at most, and what is hashed
or stored has the size that was computed for it. -/
def Fits (length : ℕ) : Access → Prop
  | .advance index n => index + n < 2 ^ 64
  | .input start n => start + n ≤ length
  | .shift amount => amount < 64
  | .write position n capacity => position + n ≤ capacity
  | _ => True

end Access

namespace BlockTemplate

open BlobReader Access
open Ask (record question)
open Traced (Agrees Stops Yields Extends)

def Answered (e : Stop) : Prop := e = .rejected ∨ e = .outOfRange

/-- The program with `size_t` lengths against the one whose cursor cannot wrap. -/
def Ideal (data : Buffer) {α : Type} (Q : α → Prop) (m i : Read α) : Prop :=
  Agrees (Fits data.length) (Safe data.length) Answered Q (m.run (source data))
    (i.run (source data))

section Rules

variable {data : Buffer} {α β : Type} {Q : α → Prop} {R : β → Prop} {m i : Read α}

theorem Ideal.bind {f g : α → Read β} (hm : Ideal data Q m i)
    (hf : ∀ a, Q a → Ideal data R (f a) (g a)) : Ideal data R (m >>= f) (i >>= g) := by
  unfold Ideal
  rw [Ask.run_bind, Ask.run_bind]
  exact Agrees.bind hm hf

theorem Ideal.mono {Q' : α → Prop} (hm : Ideal data Q m i) (h : ∀ a, Q a → Q' a) :
    Ideal data Q' m i :=
  Agrees.mono hm h

theorem Ideal.ite {c : Prop} [Decidable c] {m' i' : Read α} (ht : c → Ideal data Q m i)
    (hf : ¬ c → Ideal data Q m' i') :
    Ideal data Q (if c then m else m') (if c then i else i') := by
  by_cases hc : c
  · rw [if_pos hc, if_pos hc]
    exact ht hc
  · rw [if_neg hc, if_neg hc]
    exact hf hc

theorem ideal_pure {a : α} (h : Q a) : Ideal data Q (pure a) (pure a) :=
  Traced.agrees_pure h

theorem ideal_reject : Ideal data Q (.stop .rejected) (.stop .rejected) :=
  Traced.agrees_stop (Or.inl rfl)

theorem ideal_outOfRange : Ideal data Q (.stop .outOfRange) (.stop .outOfRange) :=
  Traced.agrees_stop (Or.inr rfl)

/-- What is recorded is safe exactly when it fits. -/
theorem ideal_record (data : Buffer) (x : Access) (hiff : x.Fits data.length ↔ x.Safe data.length) :
    Ideal data (fun _ => x.Fits data.length) (record x) (record x) := by
  refine Traced.agrees_check hiff (fun _ e he => ?_) fun hfits _ _ => hfits
  cases he

theorem ideal_safe (data : Buffer) (x : Access) (hfits : x.Fits data.length)
    (hsafe : x.Safe data.length) : Ideal data (fun _ => True) (record x) (record x) :=
  (ideal_record data x ⟨fun _ => hsafe, fun _ => hfits⟩).mono fun _ _ => trivial

/-- A byte of the blob. -/
theorem ideal_question {position : ℕ} (hposition : position < data.length) :
    Ideal data (fun b => b = data[position]) (question position) (question position) := by
  have hanswer : (source data).answer position = .ok data[position] := by
    unfold source
    dsimp only
    rw [List.getElem?_eq_getElem hposition]
  unfold Ideal question
  rw [Ask.run_ask hanswer]
  refine Traced.agrees_check ⟨fun _ => hposition, fun _ => trivial⟩ (fun _ e he => ?_)
    fun _ b hb => ?_
  · cases he
  · cases hb
    rfl

end Rules

section Readers

variable {data : Buffer} {base size : ℕ} {ar : BlobReader base size}

/-- A reader of a part of the blob. -/
structure Reads (data : Buffer) {base size : ℕ} (ar : BlobReader base size) : Prop where
  inside : base + size ≤ data.length
  index_le : ar.index ≤ size

theorem Reads.index_le_length (h : Reads data ar) : ar.index ≤ data.length := by
  have hindex := h.index_le
  have hinside := h.inside
  omega

theorem ideal_getByte (h : Reads data ar) :
    Ideal data (fun p => Reads data p.2 ∧ p.2.index = ar.index + 1) (getByte ar) (getByte ar) := by
  have hinside := h.inside
  unfold getByte
  refine Ideal.ite (fun _ => ideal_outOfRange) fun hend => ?_
  have hlt : base + ar.index < data.length := by omega
  have hle : ar.index + 1 ≤ size := by omega
  refine (ideal_question hlt).bind fun b _ => ?_
  refine (ideal_safe data (.move _ _ _) trivial ⟨Nat.le_succ _, hle⟩).bind fun _ _ => ?_
  exact ideal_pure ⟨⟨hinside, hle⟩, rfl⟩

theorem ideal_varintLoop {left shift : ℕ} (hshift : shift + 7 * left = 70) (result : ℕ)
    (hresult : result < 2 ^ 64) (h : Reads data ar) :
    Ideal data (fun p => Reads data p.2 ∧ ar.index < p.2.index ∧ p.1 < 2 ^ 64)
      (varintLoop left shift result ar) (varintLoop left shift result ar) := by
  induction left generalizing shift result ar with
  | zero =>
      unfold varintLoop
      apply (ideal_getByte h).bind
      rintro ⟨t, ar'⟩ -
      refine (ideal_record data (.shift shift) Iff.rfl).bind fun _ hfits => ?_
      have hfits : shift < 64 := hfits
      omega
  | succ left ih =>
      unfold varintLoop
      apply (ideal_getByte h).bind
      rintro ⟨t, ar'⟩ ⟨hreads, hindex⟩
      have hindex : ar'.index = ar.index + 1 := hindex
      refine (ideal_record data (.shift shift) Iff.rfl).bind fun _ _ => ?_
      have hnext : result ||| (t.toNat % 128) <<< shift % 2 ^ 64 < 2 ^ 64 :=
        Nat.or_lt_two_pow hresult (Nat.mod_lt _ (Nat.two_pow_pos 64))
      refine Ideal.ite (fun _ => ?_) fun _ => ?_
      · have hshift' : shift + 7 + 7 * left = 70 := by omega
        apply (ih hshift' _ hnext hreads).mono
        rintro ⟨n, ar''⟩ ⟨hreads', hlt, hn⟩
        exact ⟨hreads', by omega, hn⟩
      · exact ideal_pure ⟨hreads, by dsimp only; omega, hnext⟩

theorem ideal_getVarint (h : Reads data ar) :
    Ideal data (fun p => Reads data p.2 ∧ ar.index < p.2.index ∧ p.1 < 2 ^ 64)
      (getVarint ar) (getVarint ar) :=
  ideal_varintLoop rfl 0 (Nat.two_pow_pos 64) h

theorem word64_back {index n : ℕ} (hn : n < 2 ^ 64) (hwrap : ¬ index + n < 2 ^ 64) :
    word64 (index + n) < index := by
  unfold word64
  by_cases hlow : index < 2 ^ 64
  · rw [Nat.mod_eq_sub_mod (by omega), Nat.mod_eq_of_lt (by omega)]
    omega
  · have hlt := Nat.mod_lt (index + n) (Nat.two_pow_pos 64)
    omega

/-- A sum that wraps passes the check, and takes the cursor back. -/
theorem ideal_skip (h : Reads data ar) {n : ℕ} (hn : n < 2 ^ 64) :
    Ideal data (fun ar' => Reads data ar' ∧ ar'.index = ar.index + n)
      (skip word64 n ar) (skip id n ar) := by
  have hindex := h.index_le
  by_cases hwrap : ar.index + n < 2 ^ 64
  · have hword : word64 (ar.index + n) = id (ar.index + n) := Nat.mod_eq_of_lt hwrap
    unfold skip
    rw [hword]
    refine (ideal_safe data (.advance _ _) hwrap trivial).bind fun _ _ => ?_
    refine Ideal.ite (fun _ => ideal_outOfRange) fun hend => ?_
    have hle : ar.index + n ≤ size := Nat.le_of_not_lt hend
    refine (ideal_safe data (.move _ _ _) trivial ⟨Nat.le_add_right _ _, hle⟩).bind fun _ _ => ?_
    exact ideal_pure ⟨⟨h.inside, hle⟩, rfl⟩
  · have hback := word64_back hn hwrap
    have hrun : (skip word64 n ar).run (source data) =
        ⟨.ok ⟨word64 (ar.index + n)⟩,
          [.advance ar.index n, .move ar.index (word64 (ar.index + n)) size]⟩ := by
      unfold skip
      dsimp only
      rw [if_neg (by omega)]
      rfl
    refine Or.inr ⟨⟨.advance ar.index n, ?_, hwrap⟩, ⟨.move ar.index (word64 (ar.index + n)) size,
      ?_, fun hsafe => ?_⟩⟩
    · unfold skip
      rw [Ask.run_bind]
      exact Traced.log_bind_left List.mem_cons_self
    · rw [hrun]
      exact List.mem_cons_of_mem _ List.mem_cons_self
    · have hforward := hsafe.1
      omega

theorem ideal_getSpan (h : Reads data ar) {n : ℕ} (hn : n < 2 ^ 64) :
    Ideal data (fun p => Reads data p.2 ∧ p.2.index = ar.index + n)
      (getSpan word64 n ar) (getSpan id n ar) := by
  have hinside := h.inside
  unfold getSpan
  apply (ideal_skip h hn).bind
  rintro ar' ⟨hreads, hindex⟩
  have hend := hreads.index_le
  have hspan : base + ar.index + n ≤ data.length := by omega
  exact (ideal_safe data (.span _ _) trivial hspan).bind fun _ _ => ideal_pure ⟨hreads, hindex⟩

theorem ideal_setOffset {value : ℕ} (hvalue : value ≤ data.length) :
    Ideal data (fun o => o = value % 2 ^ 32) (setOffset value) (setOffset value) := by
  have hinside : value % 2 ^ 32 + 0 ≤ data.length := (Nat.mod_le value (2 ^ 32)).trans hvalue
  exact (ideal_safe data (.span _ _) trivial hinside).bind fun _ _ => ideal_pure rfl

theorem ideal_setIndex (h : Reads data ar) :
    Ideal data (fun o => o ≤ ar.index) (setOffset ar.index) (setOffset ar.index) := by
  apply (ideal_setOffset h.index_le_length).mono
  rintro o rfl
  exact Nat.mod_le _ _

end Readers

section Fields

variable {coin : Coin} {data : Buffer} {base size : ℕ} {t : BlockTemplate}
  {ar : BlobReader base size}

theorem ideal_parseSignature (h : Reads data ar) :
    Ideal data (fun p => Reads data p.2) (parseSignature word64 coin t ar)
      (parseSignature id coin t ar) := by
  unfold parseSignature
  refine Ideal.ite (fun _ => ?_) fun _ => ideal_pure h
  apply (ideal_getSpan h (by decide)).bind
  rintro ⟨minerSignature, ar⟩ ⟨h, -⟩
  apply (ideal_getSpan h (by decide)).bind
  rintro ⟨vote, ar⟩ ⟨h, -⟩
  exact ideal_pure h

theorem ideal_parsePricingRecord (h : Reads data ar) :
    Ideal data (Reads data) (parsePricingRecord word64 coin ar)
      (parsePricingRecord id coin ar) := by
  unfold parsePricingRecord
  refine Ideal.ite (fun _ => ?_) fun _ => ideal_pure h
  apply (ideal_getSpan h (by decide)).bind
  rintro ⟨record, ar⟩ ⟨h, -⟩
  exact ideal_pure h

theorem ideal_parseHeader (h : Reads data ar) :
    Ideal data (fun p => Reads data p.2) (parseHeader word64 ar)
      (parseHeader id ar) := by
  unfold parseHeader
  apply (ideal_getByte h).bind
  rintro ⟨majorVersion, ar⟩ ⟨h, -⟩
  apply (ideal_getByte h).bind
  rintro ⟨minorVersion, ar⟩ ⟨h, -⟩
  apply (ideal_getVarint h).bind
  rintro ⟨timestamp, ar⟩ ⟨h, -⟩
  apply (ideal_getSpan h (by decide)).bind
  rintro ⟨prevId, ar⟩ ⟨h, -⟩
  apply (ideal_setIndex h).bind
  intro nonceOffset _
  exact ideal_pure h

theorem ideal_parseUnlockTime (here : Bool) (h : Reads data ar) :
    Ideal data (fun p => Reads data p.2) (parseUnlockTime here t ar)
      (parseUnlockTime here t ar) := by
  unfold parseUnlockTime
  refine Ideal.ite (fun _ => ?_) fun _ => ideal_pure h
  apply (ideal_getVarint h).bind
  rintro ⟨unlockTime, ar⟩ ⟨h, -⟩
  exact ideal_pure h

theorem ideal_parseInput (h : Reads data ar) :
    Ideal data (fun p => Reads data p.2) (parseInput coin t ar)
      (parseInput coin t ar) := by
  unfold parseInput
  apply (ideal_getVarint h).bind
  rintro ⟨txVersion, ar⟩ ⟨h, -⟩
  apply (ideal_parseUnlockTime _ h).bind
  rintro ⟨t, ar⟩ h
  apply (ideal_getVarint h).bind
  rintro ⟨numInputs, ar⟩ ⟨h, -⟩
  refine Ideal.ite (fun _ => ideal_reject) fun _ => ?_
  apply (ideal_getByte h).bind
  rintro ⟨inputType, ar⟩ ⟨h, -⟩
  refine Ideal.ite (fun _ => ideal_reject) fun _ => ?_
  apply (ideal_getVarint h).bind
  rintro ⟨height, ar⟩ ⟨h, -⟩
  apply (ideal_getVarint h).bind
  rintro ⟨numOutputs, ar⟩ ⟨h, -⟩
  exact Ideal.ite (fun _ => ideal_reject) fun _ => ideal_pure h

theorem ideal_parseAssetType (h : Reads data ar) :
    Ideal data (fun p => Reads data p.2) (parseAssetType word64 ar)
      (parseAssetType id ar) := by
  unfold parseAssetType
  apply (ideal_getVarint h).bind
  rintro ⟨assetTypeLen, ar⟩ ⟨h, -, hlen⟩
  apply (ideal_skip h hlen).bind
  rintro ar ⟨h, -⟩
  apply (ideal_getByte h).mono
  rintro ⟨viewTag, ar⟩ ⟨h, -⟩
  exact h

theorem ideal_parseOutputs (left : ℕ) (h : Reads data ar) :
    Ideal data (Reads data) (parseOutputs word64 left ar)
      (parseOutputs id left ar) := by
  induction left generalizing ar with
  | zero => exact ideal_pure h
  | succ left ih =>
      unfold parseOutputs
      apply (ideal_getVarint h).bind
      rintro ⟨amount, ar⟩ ⟨h, -⟩
      apply (ideal_getByte h).bind
      rintro ⟨outputType, ar⟩ ⟨h, -⟩
      refine Ideal.ite (fun _ => ideal_reject) fun _ => ?_
      apply (ideal_getSpan h (by decide)).bind
      rintro ⟨key, ar⟩ ⟨h, -⟩
      apply (ideal_parseAssetType h).bind
      rintro ⟨viewTag, ar⟩ h
      exact ih h

theorem ideal_parseCarrot (h : Reads data ar) :
    Ideal data (fun p => Reads data p.2) (parseCarrot word64 coin t ar)
      (parseCarrot id coin t ar) := by
  unfold parseCarrot
  refine Ideal.ite (fun _ => ?_) fun _ => ideal_pure h
  apply (ideal_getSpan h (by decide)).bind
  rintro ⟨carrotViewTag, ar⟩ ⟨h, -⟩
  apply (ideal_getSpan h (by decide)).bind
  rintro ⟨janusAnchor, ar⟩ ⟨h, -⟩
  exact ideal_pure h

theorem ideal_parseViewTag (h : Reads data ar) :
    Ideal data (fun p => Reads data p.2) (parseViewTag word64 coin t ar)
      (parseViewTag id coin t ar) := by
  unfold parseViewTag
  refine Ideal.ite (fun _ => ?_) fun _ => ?_
  · refine Ideal.ite (fun _ => ideal_reject) fun _ => ?_
    apply (ideal_parseAssetType h).bind
    rintro ⟨viewTag, ar⟩ h
    apply (ideal_parseOutputs _ h).bind
    intro ar h
    exact ideal_pure h
  · refine Ideal.ite (fun _ => ?_) fun _ => ideal_pure h
    apply (ideal_getByte h).bind
    rintro ⟨viewTag, ar⟩ ⟨h, -⟩
    exact ideal_pure h

theorem ideal_parseOutput (h : Reads data ar) :
    Ideal data (fun p => Reads data p.2) (parseOutput word64 coin t ar)
      (parseOutput id coin t ar) := by
  unfold parseOutput
  apply (ideal_getVarint h).bind
  rintro ⟨amount, ar⟩ ⟨h, -⟩
  apply (ideal_getByte h).bind
  rintro ⟨outputType, ar⟩ ⟨h, -⟩
  refine Ideal.ite (fun _ => ideal_reject) fun _ => ?_
  apply (ideal_setIndex h).bind
  intro ephPublicKeyOffset _
  apply (ideal_getSpan h (by decide)).bind
  rintro ⟨ephPublicKey, ar⟩ ⟨h, -⟩
  apply (ideal_parseCarrot h).bind
  rintro ⟨t, ar⟩ h
  apply (ideal_parseViewTag h).bind
  rintro ⟨t, ar⟩ h
  exact ideal_parseUnlockTime _ h

theorem offset_le (hbase : t.txExtraOffset = base) (h : Reads data ar) :
    t.txExtraOffset + ar.index ≤ data.length := by
  have hinside := h.inside
  have hindex := h.index_le
  omega

theorem ideal_setPubkeyOffset (first : Bool) (hbase : t.txExtraOffset = base)
    (hsize : t.extraSize = size) (h : Reads data ar) :
    Ideal data (fun t' => t'.txExtraOffset = base ∧ t'.extraSize = size)
      (setPubkeyOffset first t ar) (setPubkeyOffset first t ar) := by
  unfold setPubkeyOffset
  refine Ideal.ite (fun _ => ?_) fun _ => ideal_pure ⟨hbase, hsize⟩
  apply (ideal_setOffset (offset_le hbase h)).bind
  intro txPubkeyOffset _
  exact ideal_pure ⟨hbase, hsize⟩

/-- Every field moves the cursor of the extra data, which belongs to the template it fills. -/
theorem ideal_parseField (first : Bool) (hbase : t.txExtraOffset = base)
    (hsize : t.extraSize = size) (h : Reads data ar) :
    Ideal data (fun p => (p.2.1.txExtraOffset = base ∧ p.2.1.extraSize = size) ∧
        Reads data p.2.2 ∧ ar.index < p.2.2.index)
      (parseField word64 first t ar) (parseField id first t ar) := by
  unfold parseField
  apply (ideal_getVarint h).bind
  rintro ⟨tag, ar₁⟩ ⟨h₁, hlt₁, -⟩
  refine Ideal.ite (fun _ => ?_) fun _ => Ideal.ite (fun _ => ?_) fun _ =>
    Ideal.ite (fun _ => ?_) fun _ => ideal_reject
  · apply (ideal_setPubkeyOffset first hbase hsize h₁).bind
    intro t' ht'
    apply (ideal_skip h₁ (by decide)).bind
    rintro ar₂ ⟨h₂, hindex₂⟩
    exact ideal_pure ⟨ht', h₂, by dsimp only at hlt₁ hindex₂ ⊢; omega⟩
  · apply (ideal_getVarint h₁).bind
    rintro ⟨n, ar₂⟩ ⟨h₂, hlt₂, hn⟩
    apply (ideal_setOffset (offset_le hbase h₂)).bind
    intro txExtraNonceOffset _
    apply (ideal_getSpan h₂ hn).bind
    rintro ⟨txExtraNonce, ar₃⟩ ⟨h₃, hindex₃⟩
    exact ideal_pure
      ⟨⟨hbase, hsize⟩, h₃, by dsimp only at hlt₁ hlt₂ hindex₃ ⊢; omega⟩
  · apply (ideal_getVarint h₁).bind
    rintro ⟨n, ar₂⟩ ⟨h₂, hlt₂, hn⟩
    apply (ideal_setOffset (offset_le hbase h₂)).bind
    intro txExtraMergeMiningTagOffset _
    apply (ideal_getSpan h₂ hn).bind
    rintro ⟨txMergeMiningTag, ar₃⟩ ⟨h₃, hindex₃⟩
    exact ideal_pure
      ⟨⟨hbase, hsize⟩, h₃, by dsimp only at hlt₁ hlt₂ hindex₃ ⊢; omega⟩

/-- As many steps as there are bytes left are enough. -/
theorem ideal_parseExtra {fuel : ℕ} (first : Bool) (hfuel : size - ar.index ≤ fuel)
    (hbase : t.txExtraOffset = base) (hsize : t.extraSize = size) (h : Reads data ar) :
    Ideal data (fun _ => True) (parseExtra word64 fuel first t ar)
      (parseExtra id fuel first t ar) := by
  induction fuel generalizing first t ar with
  | zero =>
      unfold parseExtra
      refine Ideal.ite (fun hmore => ?_) fun _ => ideal_pure trivial
      rw [hsize] at hmore
      omega
  | succ fuel ih =>
      unfold parseExtra
      refine Ideal.ite (fun hmore => ?_) fun _ => ideal_pure trivial
      apply (ideal_parseField first hbase hsize h).bind
      rintro ⟨first', t', ar'⟩ ⟨⟨hbase', hsize'⟩, h', hlt⟩
      have hfuel' : size - ar'.index ≤ fuel := by
        dsimp only at hlt
        omega
      exact ih first' hfuel' hbase' hsize' h'

theorem ideal_parseTxExtra {fuel : ℕ} (hfuel : data.length ≤ fuel) (h : Reads data ar) :
    Ideal data (fun p => Reads data p.2) (parseTxExtra word64 fuel t ar)
      (parseTxExtra id fuel t ar) := by
  unfold parseTxExtra
  apply (ideal_getVarint h).bind
  rintro ⟨extraSize, ar⟩ ⟨h, -, hextra⟩
  apply (ideal_setIndex h).bind
  intro txExtraOffset hoffset
  apply (ideal_skip h hextra).bind
  rintro ar' ⟨h', hindex⟩
  have hinside : txExtraOffset + extraSize ≤ data.length := by
    have hlength := h'.index_le_length
    dsimp only at hoffset hindex
    omega
  have hreads : Reads data ({} : BlobReader txExtraOffset extraSize) := ⟨hinside, Nat.zero_le _⟩
  have hfuel' : extraSize - 0 ≤ fuel := by omega
  apply (ideal_parseExtra true hfuel' rfl rfl hreads).bind
  intro t' _
  exact ideal_pure h'

theorem ideal_parsePrices (h : Reads data ar) :
    Ideal data (Reads data) (parsePrices coin ar) (parsePrices coin ar) := by
  unfold parsePrices
  refine Ideal.ite (fun _ => ?_) fun _ => ideal_pure h
  apply (ideal_getVarint h).bind
  rintro ⟨height, ar⟩ ⟨h, -⟩
  apply (ideal_getVarint h).bind
  rintro ⟨burnt, ar⟩ ⟨h, -⟩
  apply (ideal_getVarint h).bind
  rintro ⟨minted, ar⟩ ⟨h, -⟩
  exact ideal_pure h

theorem ideal_parseMinerTx {fuel : ℕ} (hfuel : data.length ≤ fuel) (h : Reads data ar) :
    Ideal data (fun p => Reads data p.2) (parseMinerTx word64 coin fuel t ar)
      (parseMinerTx id coin fuel t ar) := by
  unfold parseMinerTx
  apply (ideal_setIndex h).bind
  intro minerTxPrefixOffset _
  apply (ideal_parseInput h).bind
  rintro ⟨t, ar⟩ h
  apply (ideal_parseOutput h).bind
  rintro ⟨t, ar⟩ h
  apply (ideal_parseTxExtra hfuel h).bind
  rintro ⟨t, ar⟩ h
  apply (ideal_parsePrices h).bind
  intro ar h
  apply (ideal_setIndex h).bind
  intro minerTxPrefixEndOffset _
  exact ideal_pure h

end Fields

section Hashes

variable {coin : Coin} {data : Buffer} {base size : ℕ} {t : BlockTemplate}
  {ar : BlobReader base size}

theorem ideal_store (position n capacity : ℕ) :
    Ideal data (fun _ => True) (store position n capacity) (store position n capacity) := by
  refine (ideal_record data (.write position n capacity) Iff.rfl).bind fun _ hfits => ?_
  have hfits : position + n ≤ capacity := hfits
  exact Ideal.ite (fun _ => ideal_pure trivial) fun hout => absurd hfits hout

theorem ideal_hashInput (start stop : ℕ) :
    Ideal data (fun _ => True) (hashInput data.length start stop)
      (hashInput data.length start stop) := by
  refine (ideal_record data (.input start (inputLength start stop)) Iff.rfl).bind fun _ hfits => ?_
  have hfits : start + inputLength start stop ≤ data.length := hfits
  exact Ideal.ite (fun _ => ideal_pure trivial) fun hout => absurd hfits hout

theorem ideal_resize (capacity : ℕ) :
    Ideal data (fun _ => True) (resize capacity) (resize capacity) :=
  Ideal.ite (fun _ => ideal_outOfRange) fun _ => ideal_pure trivial

theorem ideal_parseHashes (capacity left i : ℕ) (h : Reads data ar) :
    Ideal data (fun p => Reads data p.2) (parseHashes word64 capacity left i ar)
      (parseHashes id capacity left i ar) := by
  induction left generalizing i ar with
  | zero => exact ideal_pure h
  | succ left ih =>
      unfold parseHashes
      apply (ideal_getSpan h (by decide)).bind
      rintro ⟨hash, ar⟩ ⟨h, -⟩
      refine (ideal_store _ _ _).bind fun _ _ => ?_
      apply (ih (i + 1) h).bind
      rintro ⟨rest, ar⟩ h
      exact ideal_pure h

theorem ideal_parseFcmp (capacity : ℕ) (h : Reads data ar) :
    Ideal data (fun p => Reads data p.2) (parseFcmp word64 coin capacity t ar)
      (parseFcmp id coin capacity t ar) := by
  unfold parseFcmp
  refine Ideal.ite (fun _ => ?_) fun _ => ideal_pure h
  apply (ideal_getByte h).bind
  rintro ⟨fcmpTreeLayers, ar⟩ ⟨h, -⟩
  apply (ideal_getSpan h (by decide)).bind
  rintro ⟨fcmpTreeRoot, ar⟩ ⟨h, -⟩
  refine (ideal_store _ _ _).bind fun _ _ => ?_
  refine (ideal_store _ _ _).bind fun _ _ => ?_
  exact ideal_pure h

theorem ideal_parseRoot (hashes : Bool) (h : Reads data ar) :
    Ideal data (fun _ => True) (parseRoot word64 coin data.length hashes t ar)
      (parseRoot id coin data.length hashes t ar) := by
  unfold parseRoot parseRootHashes
  apply (ideal_getVarint h).bind
  rintro ⟨numHashes, ar⟩ ⟨h, -⟩
  refine Ideal.ite (fun _ => ?_) fun _ => ideal_pure trivial
  refine (ideal_resize _).bind fun _ _ => ?_
  refine (ideal_hashInput _ _).bind fun _ _ => ?_
  refine (ideal_store _ _ _).bind fun _ _ => ?_
  apply (ideal_parseHashes _ _ _ h).bind
  rintro ⟨spans, ar⟩ h
  apply (ideal_parseFcmp _ h).bind
  rintro ⟨t, ar⟩ -
  exact ideal_pure trivial

theorem ideal_parseTail (hashes : Bool) (h : Reads data ar) :
    Ideal data (fun _ => True) (parseTail word64 coin data.length hashes t ar)
      (parseTail id coin data.length hashes t ar) := by
  unfold parseTail
  apply (ideal_getByte h).bind
  rintro ⟨vinRctType, ar⟩ ⟨h, -⟩
  refine Ideal.ite (fun _ => ideal_pure trivial) fun _ => ?_
  refine Ideal.ite (fun _ => ideal_reject) fun _ => ?_
  refine Ideal.ite (fun _ => ideal_reject) fun hend => ?_
  have hinside : t.minerTxPrefixEndOffset + 1 ≤ data.length := by
    have hlength := h.index_le_length
    have hend := not_not.mp hend
    dsimp only at hlength hend
    omega
  have hreads : Reads data ({} : BlobReader t.minerTxPrefixEndOffset 1) :=
    ⟨hinside, Nat.zero_le _⟩
  apply (ideal_getByte hreads).bind
  rintro ⟨byte, last⟩ -
  exact Ideal.ite (fun _ => ideal_reject) fun _ => ideal_parseRoot hashes h

theorem ideal_parseBlob {fuel : ℕ} (hfuel : data.length ≤ fuel) (hashes : Bool) :
    Ideal data (fun _ => True) (parseBlob word64 coin data.length fuel hashes)
      (parseBlob id coin data.length fuel hashes) := by
  have hreads : Reads data ({} : BlobReader 0 data.length) := ⟨by omega, Nat.zero_le _⟩
  unfold parseBlob
  apply (ideal_parseHeader hreads).bind
  rintro ⟨t, ar⟩ h
  apply (ideal_skip h (by decide)).bind
  rintro ar ⟨h, -⟩
  apply (ideal_parseSignature h).bind
  rintro ⟨t, ar⟩ h
  apply (ideal_parsePricingRecord h).bind
  intro ar h
  apply (ideal_parseMinerTx hfuel h).bind
  rintro ⟨t, ar⟩ h
  exact ideal_parseTail hashes h

end Hashes

section Fuel

variable {word : ℕ → ℕ} {coin : Coin} {data : Buffer} {base size fuel fuel' : ℕ}

/-- A run that had too little fuel is the beginning of the run with more. -/
def Grows {α : Type} (data : Buffer) (m m' : Read α) : Prop :=
  Extends .running (m.run (source data)) (m'.run (source data))

theorem grows_refl {α : Type} (m : Read α) : Grows data m m := Traced.extends_refl _ _

theorem Grows.bind {α β : Type} {m m' : Read α} {f f' : α → Read β} (hm : Grows data m m')
    (hf : ∀ a, Grows data (f a) (f' a)) : Grows data (m >>= f) (m' >>= f') := by
  unfold Grows
  rw [Ask.run_bind, Ask.run_bind]
  exact Extends.bind hm hf

theorem grows_parseExtra (hle : fuel ≤ fuel') (first : Bool) (t : BlockTemplate)
    (ar : BlobReader base size) :
    Grows data (parseExtra word fuel first t ar) (parseExtra word fuel' first t ar) := by
  induction fuel generalizing fuel' first t ar with
  | zero =>
      by_cases hmore : ar.index < t.extraSize
      · apply Or.inr
        unfold parseExtra
        rw [if_pos hmore]
        exact ⟨rfl, List.nil_prefix⟩
      · apply Or.inl
        cases fuel' with
        | zero => rfl
        | succ fuel' =>
            unfold parseExtra
            rw [if_neg hmore, if_neg hmore]
  | succ fuel ih =>
      cases fuel' with
      | zero => omega
      | succ fuel' =>
          have hle' : fuel ≤ fuel' := Nat.le_of_succ_le_succ hle
          unfold parseExtra
          by_cases hmore : ar.index < t.extraSize
          · rw [if_pos hmore, if_pos hmore]
            apply (grows_refl _).bind
            rintro ⟨first', t', ar'⟩
            exact ih hle' first' t' ar'
          · rw [if_neg hmore, if_neg hmore]
            exact grows_refl _

theorem grows_parseMinerTx (hle : fuel ≤ fuel') (t : BlockTemplate) (ar : BlobReader base size) :
    Grows data (parseMinerTx word coin fuel t ar) (parseMinerTx word coin fuel' t ar) := by
  unfold parseMinerTx
  refine (grows_refl _).bind fun minerTxPrefixOffset => ?_
  refine (grows_refl _).bind fun input => ?_
  refine (grows_refl _).bind fun output => ?_
  refine Grows.bind ?_ fun extra => grows_refl _
  unfold parseTxExtra
  refine (grows_refl _).bind fun extraSize => ?_
  refine (grows_refl _).bind fun txExtraOffset => ?_
  refine (grows_refl _).bind fun ar => ?_
  exact (grows_parseExtra hle _ _ _).bind fun t => grows_refl _

theorem grows_parseBlob (hle : fuel ≤ fuel') (length : ℕ) (hashes : Bool) :
    Grows data (parseBlob word coin length fuel hashes)
      (parseBlob word coin length fuel' hashes) := by
  unfold parseBlob
  refine (grows_refl _).bind fun header => ?_
  refine (grows_refl _).bind fun ar => ?_
  refine (grows_refl _).bind fun signature => ?_
  refine (grows_refl _).bind fun ar => ?_
  exact (grows_parseMinerTx hle _ _).bind fun t => grows_refl _

theorem extends_parse (hle : fuel ≤ fuel') (keccak : Buffer → Hash) (hashes : Bool) :
    Extends .running (parse coin keccak data fuel hashes)
      (parse coin keccak data fuel' hashes) := by
  unfold parse
  by_cases hsize : data.length < kMinSize
  · rw [if_pos hsize, if_pos hsize]
    exact Traced.extends_refl _ _
  · rw [if_neg hsize, if_neg hsize]
    exact Extends.bind (grows_parseBlob hle _ _) fun _ => Traced.extends_refl _ _

end Fuel

section Safety

variable (coin : Coin) (keccak : Buffer → Hash) (data : Buffer) (hashes : Bool)

/-- The parse with a cursor that cannot wrap. -/
def layout : Traced Stop Access BlockTemplate :=
  if data.length < kMinSize then Traced.stop .rejected
  else (parseBlob id coin data.length data.length hashes).run (source data) >>= fun p =>
    pure (withRoot coin keccak data p)

/-- The parse ends with an answer, and does nothing unsafe on the way. -/
def ParsesSafely : Prop :=
  ∃ fuel b, answer (parse coin keccak data fuel hashes) = some b ∧
    ∀ x ∈ (parse coin keccak data fuel hashes).log, x.Safe data.length

variable {coin keccak data hashes}

theorem agrees_parse (coin : Coin) (keccak : Buffer → Hash) (data : Buffer) (hashes : Bool) :
    Agrees (Fits data.length) (Safe data.length) Answered (fun _ => True)
      (parse coin keccak data data.length hashes) (layout coin keccak data hashes) := by
  unfold parse layout
  refine Agrees.ite (fun _ => Traced.agrees_stop (Or.inl rfl)) fun _ => ?_
  exact Agrees.bind (ideal_parseBlob (Nat.le_refl _) hashes) fun _ _ => Traced.agrees_pure trivial

theorem answer_of_stops {m : Traced Stop Access BlockTemplate} (h : Stops Answered m) :
    ∃ b, answer m = some b := by
  unfold answer
  cases hm : m.outcome with
  | ok t => exact ⟨some t, rfl⟩
  | error e =>
      rcases h e hm with rfl | rfl
      · exact ⟨none, rfl⟩
      · exact ⟨none, rfl⟩

theorem parsesSafely_of_fits (h : ∀ x ∈ (layout coin keccak data hashes).log, x.Fits data.length) :
    ParsesSafely coin keccak data hashes := by
  rcases agrees_parse coin keccak data hashes with ⟨heq, hlog, hstops, -⟩ | ⟨⟨x, hx, hfits⟩, -⟩
  · rw [← heq] at hlog hstops
    obtain ⟨b, hb⟩ := answer_of_stops hstops
    exact ⟨data.length, b, hb, fun x hx => (hlog x hx).2⟩
  · exact absurd (h x hx) hfits

/-- An unsafe access is there with any amount of fuel that gives an answer. -/
theorem fits_of_parsesSafely (h : ParsesSafely coin keccak data hashes) :
    ∀ x ∈ (layout coin keccak data hashes).log, x.Fits data.length := by
  obtain ⟨fuel, b, hb, hsafe⟩ := h
  rcases agrees_parse coin keccak data hashes with ⟨-, hlog, -, -⟩ | ⟨-, ⟨y, hy, hunsafe⟩⟩
  · exact fun x hx => (hlog x hx).1
  · have hany : y ∈ (parse coin keccak data fuel hashes).log := by
      rcases Nat.le_total fuel data.length with hle | hle
      · rcases extends_parse hle keccak hashes with heq | ⟨hrunning, -⟩
        · rw [heq]
          exact hy
        · unfold answer at hb
          rw [hrunning] at hb
          cases hb
      · rcases extends_parse hle keccak hashes with heq | ⟨-, hprefix⟩
        · rw [← heq]
          exact hy
        · exact hprefix.subset hy
    exact absurd (hsafe y hany) hunsafe

/-- A parse is safe exactly when an unbounded cursor meets no length that reaches the end of
`size_t`, no varint of more than ten bytes, no hash outside the size computed for them and no
miner transaction that an `int` cannot measure. -/
theorem parsesSafely_iff (coin : Coin) (keccak : Buffer → Hash) (data : Buffer) (hashes : Bool) :
    ParsesSafely coin keccak data hashes ↔
      ∀ x ∈ (layout coin keccak data hashes).log, x.Fits data.length :=
  ⟨fits_of_parsesSafely, parsesSafely_of_fits⟩

/-- An extra nonce of `2 ^ 64 - 11` bytes takes the cursor back to the field it starts with. -/
def backwardsTemplate : Buffer :=
  [16, 16, 0] ++ List.replicate 36 0 ++ [2, 60, 1, 0xFF, 0, 1, 0, 2] ++ List.replicate 32 0 ++
    [11, 2, 0xF5] ++ List.replicate 8 0xFF ++ [1]

theorem backwards_not_safe :
    ¬ ParsesSafely Coin.MONERO (fun _ => Hash.zero) backwardsTemplate true := by
  intro h
  have hmem : Access.advance 11 (2 ^ 64 - 11) ∈
      (layout Coin.MONERO (fun _ => Hash.zero) backwardsTemplate true).log := by decide +kernel
  have hfits : 11 + (2 ^ 64 - 11) < 2 ^ 64 := fits_of_parsesSafely h _ hmem
  omega

end Safety

end BlockTemplate

end XmrigProxy
