import XmrigProxy.TemplateSafety

/-! Where a parse looks. With a cursor that cannot wrap the bytes that decide the parse are read
from left to right, each once, and what is skipped is not read at all: neither the nonce of the
header nor the extra nonce of the miner transaction. -/
namespace XmrigProxy

namespace BlockTemplate

open BlobReader
open Ask (record question)

section Rules

variable {data : Buffer} {α β : Type} {top lo : ℕ} {cursor : α → ℕ} {next : β → ℕ}
  {P : α → Prop} {R : β → Prop} {m : Read α}

/-- A part of the parse that starts at `lo` and ends at `cursor`, below `top`, reads only bytes
between the two. -/
def Scans (data : Buffer) (top lo : ℕ) (cursor : α → ℕ) (P : α → Prop) (m : Read α) : Prop :=
  lo ≤ top → ∀ a, (m.run (source data)).outcome = .ok a →
    lo ≤ cursor a ∧ cursor a ≤ top ∧
      (∀ p, .read p ∈ (m.run (source data)).log → lo ≤ p ∧ p < cursor a) ∧ P a

/-- The trace of a sequence whose first part ended well. -/
theorem run_bind_ok {f : α → Read β} {a : α} (h : (m.run (source data)).outcome = .ok a) :
    (m >>= f).run (source data) = ⟨((f a).run (source data)).outcome,
      (m.run (source data)).log ++ ((f a).run (source data)).log⟩ := by
  rw [Ask.run_bind, Traced.bind_ok h]

theorem outcome_bind {f : α → Read β} {b : β} (h : ((m >>= f).run (source data)).outcome = .ok b) :
    ∃ a, (m.run (source data)).outcome = .ok a ∧ ((f a).run (source data)).outcome = .ok b := by
  rw [Ask.run_bind] at h
  exact Traced.outcome_bind_ok h

theorem Scans.bind {f : α → Read β} (hm : Scans data top lo cursor P m)
    (hf : ∀ a, lo ≤ cursor a → cursor a ≤ top → P a → Scans data top (cursor a) next R (f a)) :
    Scans data top lo next R (m >>= f) := by
  intro hlo b hb
  obtain ⟨a, ha, hb⟩ := outcome_bind hb
  obtain ⟨hle, htop, hreads, hP⟩ := hm hlo a ha
  obtain ⟨hle', htop', hreads', hR⟩ := hf a hle htop hP htop b hb
  refine ⟨hle.trans hle', htop', fun p hp => ?_, hR⟩
  rw [run_bind_ok ha] at hp
  rcases List.mem_append.mp hp with hp | hp
  · exact ⟨(hreads p hp).1, (hreads p hp).2.trans_le hle'⟩
  · exact ⟨hle.trans (hreads' p hp).1, (hreads' p hp).2⟩

theorem Scans.mono {P' : α → Prop} (hm : Scans data top lo cursor P m)
    (h : ∀ a, cursor a ≤ top → P a → P' a) : Scans data top lo cursor P' m := by
  intro hlo a ha
  obtain ⟨hle, htop, hreads, hP⟩ := hm hlo a ha
  exact ⟨hle, htop, hreads, h a htop hP⟩

theorem Scans.ite {c : Prop} [Decidable c] {m' : Read α} (ht : c → Scans data top lo cursor P m)
    (hf : ¬ c → Scans data top lo cursor P m') :
    Scans data top lo cursor P (if c then m else m') := by
  by_cases hc : c
  · rw [if_pos hc]
    exact ht hc
  · rw [if_neg hc]
    exact hf hc

theorem scans_stop (e : Stop) : Scans data top lo cursor P (.stop e : Read α) := by
  intro _ a ha
  cases ha

theorem scans_pure {a : α} (hcursor : cursor a = lo) (hP : P a) :
    Scans data top lo cursor P (pure a) := by
  intro hlo b hb
  cases hb
  exact ⟨hcursor.ge, hcursor.trans_le hlo, fun p hp => absurd hp List.not_mem_nil, hP⟩

/-- What is recorded besides reads does not move the cursor. -/
theorem scans_record {x : Access} (h : ∀ p, x ≠ .read p) :
    Scans data top lo (fun _ => lo) (fun _ => True) (record x) := by
  intro hlo _ _
  refine ⟨le_rfl, hlo, fun p hp => ?_, trivial⟩
  exact absurd (List.mem_singleton.mp hp).symm (h p)

theorem scans_question {position : ℕ} (hlt : position < top) :
    Scans data top position (fun _ => position + 1) (fun _ => True) (question position) := by
  intro _ b hb
  refine ⟨Nat.le_succ _, hlt, fun p hp => ?_, trivial⟩
  cases hanswer : (source data).answer position with
  | error e =>
      unfold question at hb
      rw [Ask.run_ask_error hanswer] at hb
      cases hb
  | ok c =>
      unfold question at hp
      rw [Ask.run_ask hanswer] at hp
      rcases List.mem_cons.mp hp with heq | hnil
      · cases heq
        exact ⟨le_rfl, Nat.lt_succ_self _⟩
      · exact absurd hnil List.not_mem_nil

end Rules

section Readers

variable {data : Buffer} {base size : ℕ}

/-- The position of a reader in the blob. -/
def position (ar : BlobReader base size) : ℕ := base + ar.index

theorem scans_getByte (ar : BlobReader base size) :
    Scans data (base + size) (position ar) (fun p => position p.2)
      (fun _ => True) (getByte ar) := by
  unfold getByte
  refine Scans.ite (fun _ => scans_stop _) fun hend => ?_
  have hlt : position ar < base + size := by
    unfold position
    omega
  refine (scans_question hlt).bind fun b _ _ _ => ?_
  refine (scans_record fun p => by simp).bind fun _ _ _ _ => ?_
  exact scans_pure rfl trivial

theorem scans_varintLoop (left shift result : ℕ) (ar : BlobReader base size) :
    Scans data (base + size) (position ar) (fun p => position p.2) (fun _ => True)
      (varintLoop left shift result ar) := by
  induction left generalizing shift result ar with
  | zero =>
      unfold varintLoop
      apply (scans_getByte ar).bind
      rintro ⟨t, ar'⟩ - - -
      exact (scans_record fun p => by simp).bind fun _ _ _ _ => scans_stop _
  | succ left ih =>
      unfold varintLoop
      apply (scans_getByte ar).bind
      rintro ⟨t, ar'⟩ - - -
      refine (scans_record fun p => by simp).bind fun _ _ _ _ => ?_
      exact Scans.ite (fun _ => ih _ _ ar') fun _ => scans_pure rfl trivial

theorem scans_getVarint (ar : BlobReader base size) :
    Scans data (base + size) (position ar) (fun p => position p.2) (fun _ => True)
      (getVarint ar) :=
  scans_varintLoop 10 0 0 ar

/-- What is skipped is not read. -/
theorem skip_unread (n : ℕ) (ar : BlobReader base size) {a : BlobReader base size}
    (h : ((skip id n ar).run (source data)).outcome = .ok a) :
    a.index = ar.index + n ∧ a.index ≤ size ∧
      ∀ p, .read p ∉ ((skip id n ar).run (source data)).log := by
  unfold skip at h ⊢
  by_cases hend : size < ar.index + n
  · have hstop : ((record (.advance ar.index n) >>= fun _ =>
        (.stop .outOfRange : Read (BlobReader base size))).run (source data)).outcome =
        .error .outOfRange := rfl
    simp only [id_eq, if_pos hend] at h
    rw [hstop] at h
    cases h
  · simp only [id_eq, if_neg hend] at h ⊢
    cases h
    refine ⟨rfl, Nat.le_of_not_lt hend, fun p hp => ?_⟩
    rcases List.mem_cons.mp hp with heq | hp
    · cases heq
    · cases List.mem_singleton.mp hp

theorem scans_skip (n : ℕ) (ar : BlobReader base size) :
    Scans data (base + size) (position ar) position (fun a => a.index = ar.index + n)
      (skip id n ar) := by
  intro _ a ha
  obtain ⟨hindex, hle, hunread⟩ := skip_unread n ar ha
  refine ⟨?_, ?_, fun p hp => absurd hp (hunread p), hindex⟩
  · unfold position
    omega
  · unfold position
    omega

theorem scans_getSpan (n : ℕ) (ar : BlobReader base size) :
    Scans data (base + size) (position ar) (fun p => position p.2)
      (fun p => p.1 = ⟨position ar, n⟩ ∧ p.2.index = ar.index + n) (getSpan id n ar) := by
  unfold getSpan
  refine (scans_skip n ar).bind fun next _ _ hnext => ?_
  refine (scans_record fun p => by simp).bind fun _ _ _ _ => ?_
  exact scans_pure rfl ⟨rfl, hnext⟩

theorem getSpan_unread (n : ℕ) (ar : BlobReader base size) {r : Span × BlobReader base size}
    (h : ((getSpan id n ar).run (source data)).outcome = .ok r) (p : ℕ) :
    .read p ∉ ((getSpan id n ar).run (source data)).log := by
  obtain ⟨next, hnext, -⟩ := outcome_bind h
  obtain ⟨-, -, hunread⟩ := skip_unread n ar hnext
  unfold getSpan
  rw [run_bind_ok hnext]
  intro hp
  rcases List.mem_append.mp hp with hp | hp
  · exact hunread p hp
  · cases List.mem_singleton.mp hp

theorem scans_setOffset {top lo : ℕ} (value : ℕ) :
    Scans data top lo (fun _ => lo) (fun v => v = value % 2 ^ 32) (setOffset value) := by
  unfold setOffset
  exact (scans_record fun p => by simp).bind fun _ _ _ _ => scans_pure rfl rfl

end Readers

section Fields

variable {coin : Coin} {data : Buffer} {base size : ℕ} {t : BlockTemplate}

def SameNonce (t t' : BlockTemplate) : Prop :=
  t'.txExtraNonce = t.txExtraNonce ∧ t'.txExtraNonceOffset = t.txExtraNonceOffset

/-- What is found of the header, of the prefix and of the extra nonce stays. -/
structure Keeps (t t' : BlockTemplate) : Prop where
  nonceOffset : t'.nonceOffset = t.nonceOffset
  minerTxPrefixOffset : t'.minerTxPrefixOffset = t.minerTxPrefixOffset
  nonce : SameNonce t t'

theorem keeps_refl (t : BlockTemplate) : Keeps t t := ⟨rfl, rfl, rfl, rfl⟩

theorem Keeps.trans {t t' t'' : BlockTemplate} (h : Keeps t t') (h' : Keeps t' t'') :
    Keeps t t'' :=
  ⟨h'.nonceOffset.trans h.nonceOffset, h'.minerTxPrefixOffset.trans h.minerTxPrefixOffset,
    h'.nonce.1.trans h.nonce.1, h'.nonce.2.trans h.nonce.2⟩

theorem scans_parseSignature (ar : BlobReader base size) :
    Scans data (base + size) (position ar) (fun p => position p.2) (fun p => Keeps t p.1)
      (parseSignature id coin t ar) := by
  unfold parseSignature
  refine Scans.ite (fun _ => ?_) fun _ => scans_pure rfl (keeps_refl t)
  apply (scans_getSpan _ ar).bind
  rintro ⟨minerSignature, ar₁⟩ - - -
  apply (scans_getSpan _ ar₁).bind
  rintro ⟨vote, ar₂⟩ - - -
  exact scans_pure rfl ⟨rfl, rfl, rfl, rfl⟩

theorem scans_parsePricingRecord (ar : BlobReader base size) :
    Scans data (base + size) (position ar) position (fun _ => True)
      (parsePricingRecord id coin ar) := by
  unfold parsePricingRecord
  refine Scans.ite (fun _ => ?_) fun _ => scans_pure rfl trivial
  apply (scans_getSpan _ ar).bind
  rintro ⟨record, ar₁⟩ - - -
  exact scans_pure rfl trivial

/-- The header up to the nonce. -/
theorem scans_parseHeader (ar : BlobReader base size) :
    Scans data (base + size) (position ar) (fun p => position p.2)
      (fun p => p.1.nonceOffset = p.2.index % 2 ^ 32 ∧ p.1.txExtraNonce = {})
      (parseHeader id ar) := by
  unfold parseHeader
  apply (scans_getByte ar).bind
  rintro ⟨majorVersion, ar₁⟩ - - -
  apply (scans_getByte ar₁).bind
  rintro ⟨minorVersion, ar₂⟩ - - -
  apply (scans_getVarint ar₂).bind
  rintro ⟨timestamp, ar₃⟩ - - -
  apply (scans_getSpan _ ar₃).bind
  rintro ⟨prevId, ar₄⟩ - - -
  refine (scans_setOffset ar₄.index).bind fun nonceOffset _ _ hoffset => ?_
  exact scans_pure rfl ⟨hoffset, rfl⟩

theorem scans_parseUnlockTime (here : Bool) (ar : BlobReader base size) :
    Scans data (base + size) (position ar) (fun p => position p.2) (fun p => Keeps t p.1)
      (parseUnlockTime here t ar) := by
  unfold parseUnlockTime
  refine Scans.ite (fun _ => ?_) fun _ => scans_pure rfl (keeps_refl t)
  apply (scans_getVarint ar).bind
  rintro ⟨unlockTime, ar₁⟩ - - -
  exact scans_pure rfl ⟨rfl, rfl, rfl, rfl⟩

theorem scans_parseInput (ar : BlobReader base size) :
    Scans data (base + size) (position ar) (fun p => position p.2) (fun p => Keeps t p.1)
      (parseInput coin t ar) := by
  unfold parseInput
  apply (scans_getVarint ar).bind
  rintro ⟨txVersion, ar₁⟩ - - -
  apply (scans_parseUnlockTime _ ar₁).bind
  rintro ⟨t', ar₂⟩ - - hkeeps
  apply (scans_getVarint ar₂).bind
  rintro ⟨numInputs, ar₃⟩ - - -
  refine Scans.ite (fun _ => scans_stop _) fun _ => ?_
  apply (scans_getByte ar₃).bind
  rintro ⟨inputType, ar₄⟩ - - -
  refine Scans.ite (fun _ => scans_stop _) fun _ => ?_
  apply (scans_getVarint ar₄).bind
  rintro ⟨height, ar₅⟩ - - -
  apply (scans_getVarint ar₅).bind
  rintro ⟨numOutputs, ar₆⟩ - - -
  refine Scans.ite (fun _ => scans_stop _) fun _ => ?_
  exact scans_pure rfl ⟨hkeeps.nonceOffset, hkeeps.minerTxPrefixOffset, hkeeps.nonce⟩

theorem scans_parseAssetType (ar : BlobReader base size) :
    Scans data (base + size) (position ar) (fun p => position p.2) (fun _ => True)
      (parseAssetType id ar) := by
  unfold parseAssetType
  apply (scans_getVarint ar).bind
  rintro ⟨assetTypeLen, ar₁⟩ - - -
  refine (scans_skip _ ar₁).bind fun ar₂ _ _ _ => ?_
  exact scans_getByte ar₂

theorem scans_parseOutputs (left : ℕ) (ar : BlobReader base size) :
    Scans data (base + size) (position ar) position (fun _ => True) (parseOutputs id left ar) := by
  induction left generalizing ar with
  | zero => exact scans_pure rfl trivial
  | succ left ih =>
      unfold parseOutputs
      apply (scans_getVarint ar).bind
      rintro ⟨amount, ar₁⟩ - - -
      apply (scans_getByte ar₁).bind
      rintro ⟨outputType, ar₂⟩ - - -
      refine Scans.ite (fun _ => scans_stop _) fun _ => ?_
      apply (scans_getSpan _ ar₂).bind
      rintro ⟨key, ar₃⟩ - - -
      apply (scans_parseAssetType ar₃).bind
      rintro ⟨viewTag, ar₄⟩ - - -
      exact ih ar₄

theorem scans_parseCarrot (ar : BlobReader base size) :
    Scans data (base + size) (position ar) (fun p => position p.2) (fun p => Keeps t p.1)
      (parseCarrot id coin t ar) := by
  unfold parseCarrot
  refine Scans.ite (fun _ => ?_) fun _ => scans_pure rfl (keeps_refl t)
  apply (scans_getSpan _ ar).bind
  rintro ⟨carrotViewTag, ar₁⟩ - - -
  apply (scans_getSpan _ ar₁).bind
  rintro ⟨janusAnchor, ar₂⟩ - - -
  exact scans_pure rfl ⟨rfl, rfl, rfl, rfl⟩

theorem scans_parseViewTag (ar : BlobReader base size) :
    Scans data (base + size) (position ar) (fun p => position p.2) (fun p => Keeps t p.1)
      (parseViewTag id coin t ar) := by
  unfold parseViewTag
  refine Scans.ite (fun _ => ?_) fun _ => ?_
  · refine Scans.ite (fun _ => scans_stop _) fun _ => ?_
    apply (scans_parseAssetType ar).bind
    rintro ⟨viewTag, ar₁⟩ - - -
    refine (scans_parseOutputs _ ar₁).bind fun ar₂ _ _ _ => ?_
    exact scans_pure rfl ⟨rfl, rfl, rfl, rfl⟩
  · refine Scans.ite (fun _ => ?_) fun _ => scans_pure rfl (keeps_refl t)
    apply (scans_getByte ar).bind
    rintro ⟨viewTag, ar₁⟩ - - -
    exact scans_pure rfl ⟨rfl, rfl, rfl, rfl⟩

theorem scans_parseOutput (ar : BlobReader base size) :
    Scans data (base + size) (position ar) (fun p => position p.2) (fun p => Keeps t p.1)
      (parseOutput id coin t ar) := by
  unfold parseOutput
  apply (scans_getVarint ar).bind
  rintro ⟨amount, ar₁⟩ - - -
  apply (scans_getByte ar₁).bind
  rintro ⟨outputType, ar₂⟩ - - -
  refine Scans.ite (fun _ => scans_stop _) fun _ => ?_
  refine (scans_setOffset ar₂.index).bind fun ephPublicKeyOffset _ _ _ => ?_
  apply (scans_getSpan _ ar₂).bind
  rintro ⟨ephPublicKey, ar₃⟩ - - -
  apply (scans_parseCarrot ar₃).bind
  rintro ⟨t₁, ar₄⟩ - - hcarrot
  apply (scans_parseViewTag ar₄).bind
  rintro ⟨t₂, ar₅⟩ - - hviewTag
  apply (scans_parseUnlockTime _ ar₅).mono
  rintro ⟨t₃, ar₆⟩ - hunlock
  have hkeeps := (hcarrot.trans hviewTag).trans hunlock
  exact ⟨hkeeps.nonceOffset, hkeeps.minerTxPrefixOffset, hkeeps.nonce⟩

theorem scans_parsePrices (ar : BlobReader base size) :
    Scans data (base + size) (position ar) position (fun _ => True) (parsePrices coin ar) := by
  unfold parsePrices
  refine Scans.ite (fun _ => ?_) fun _ => scans_pure rfl trivial
  apply (scans_getVarint ar).bind
  rintro ⟨price, ar₁⟩ - - -
  apply (scans_getVarint ar₁).bind
  rintro ⟨price, ar₂⟩ - - -
  apply (scans_getVarint ar₂).bind
  rintro ⟨price, ar₃⟩ - - -
  exact scans_pure rfl trivial

end Fields

section Extra

variable {data : Buffer} {base size : ℕ} {t : BlockTemplate}

/-- What the loop over the extra data leaves as it was. -/
structure KeepsExtra (t t' : BlockTemplate) : Prop where
  nonceOffset : t'.nonceOffset = t.nonceOffset
  minerTxPrefixOffset : t'.minerTxPrefixOffset = t.minerTxPrefixOffset
  txExtraOffset : t'.txExtraOffset = t.txExtraOffset
  extraSize : t'.extraSize = t.extraSize

/-- An extra nonce was found between the two positions, and none of its bytes was read. -/
structure NonceAt (lo hi : ℕ) (reads : ℕ → Prop) (t : BlockTemplate) : Prop where
  start : lo ≤ t.txExtraNonceOffset
  stop : t.txExtraNonceOffset + t.txExtraNonce.size ≤ hi
  unread : ∀ p, reads p → p < t.txExtraNonceOffset ∨ t.txExtraNonceOffset + t.txExtraNonce.size ≤ p

/-- What a part of the parse reads. -/
def reads (data : Buffer) {α : Type} (m : Read α) (p : ℕ) : Prop :=
  .read p ∈ (m.run (source data)).log

theorem scans_setPubkeyOffset {top lo : ℕ} (first : Bool) (ar : BlobReader base size) :
    Scans data top lo (fun _ => lo) (fun t' => KeepsExtra t t' ∧ SameNonce t t')
      (setPubkeyOffset first t ar) := by
  unfold setPubkeyOffset
  refine Scans.ite (fun _ => ?_) fun _ => scans_pure rfl ⟨⟨rfl, rfl, rfl, rfl⟩, rfl, rfl⟩
  refine (scans_setOffset _).bind fun txPubkeyOffset _ _ _ => ?_
  exact scans_pure rfl ⟨⟨rfl, rfl, rfl, rfl⟩, rfl, rfl⟩

theorem scans_parseField (first : Bool) (ar : BlobReader base size) :
    Scans data (base + size) (position ar) (fun r => position r.2.2)
      (fun r => KeepsExtra t r.2.1) (parseField id first t ar) := by
  unfold parseField
  apply (scans_getVarint ar).bind
  rintro ⟨tag, ar₁⟩ - - -
  refine Scans.ite (fun _ => ?_) fun _ => Scans.ite (fun _ => ?_) fun _ =>
    Scans.ite (fun _ => ?_) fun _ => scans_stop _
  · refine (scans_setPubkeyOffset first ar₁).bind fun t' _ _ hkeeps => ?_
    refine (scans_skip _ ar₁).bind fun ar₂ _ _ _ => ?_
    exact scans_pure rfl hkeeps.1
  · apply (scans_getVarint ar₁).bind
    rintro ⟨n, ar₂⟩ - - -
    refine (scans_setOffset _).bind fun txExtraNonceOffset _ _ _ => ?_
    apply (scans_getSpan n ar₂).bind
    rintro ⟨txExtraNonce, ar₃⟩ - - -
    exact scans_pure rfl ⟨rfl, rfl, rfl, rfl⟩
  · apply (scans_getVarint ar₁).bind
    rintro ⟨n, ar₂⟩ - - -
    refine (scans_setOffset _).bind fun txExtraMergeMiningTagOffset _ _ _ => ?_
    apply (scans_getSpan n ar₂).bind
    rintro ⟨txMergeMiningTag, ar₃⟩ - - -
    exact scans_pure rfl ⟨rfl, rfl, rfl, rfl⟩

/-- A field leaves the extra nonce as it was, or holds it. -/
theorem parseField_nonce (hbase : t.txExtraOffset = base) (hsize : base + size < 2 ^ 32)
    (first : Bool) {ar : BlobReader base size} (hindex : ar.index ≤ size)
    {r : Bool × BlockTemplate × BlobReader base size}
    (h : ((parseField id first t ar).run (source data)).outcome = .ok r) :
    SameNonce t r.2.1 ∨
      NonceAt (position ar) (position r.2.2) (reads data (parseField id first t ar)) r.2.1 := by
  obtain ⟨⟨tag, ar₁⟩, htag, hrest⟩ := outcome_bind h
  have hstart : position ar ≤ base + size := Nat.add_le_add_left hindex base
  obtain ⟨hle₁, htop₁, hreads₁, -⟩ := scans_getVarint ar hstart _ htag
  dsimp only at hrest hle₁ htop₁ hreads₁
  by_cases hone : tag = 1
  · rw [if_pos hone] at hrest
    obtain ⟨t', ht', hrest⟩ := outcome_bind hrest
    obtain ⟨ar₂, -, hrest⟩ := outcome_bind hrest
    cases hrest
    apply Or.inl
    unfold setPubkeyOffset at ht'
    cases first with
    | true =>
        cases ht'
        exact ⟨rfl, rfl⟩
    | false =>
        cases ht'
        exact ⟨rfl, rfl⟩
  · by_cases htwo : tag = 2
    · rw [if_neg hone, if_pos htwo] at hrest
      obtain ⟨⟨n, ar₂⟩, hn, hrest⟩ := outcome_bind hrest
      obtain ⟨hle₂, htop₂, hreads₂, -⟩ := scans_getVarint ar₁ htop₁ _ hn
      dsimp only at hrest hle₂ htop₂ hreads₂
      obtain ⟨offset, hoffset, hrest⟩ := outcome_bind hrest
      obtain ⟨⟨span, ar₃⟩, hspan, hrest⟩ := outcome_bind hrest
      obtain ⟨hle₃, htop₃, -, hvalue, hindex₃⟩ := scans_getSpan n ar₂ htop₂ _ hspan
      dsimp only at hrest hle₃ htop₃ hvalue hindex₃
      cases hrest
      have hat : offset = position ar₂ := by
        cases hoffset
        rw [hbase]
        exact Nat.mod_eq_of_lt (htop₂.trans_lt hsize)
      refine Or.inr ⟨?_, ?_, fun p hp => Or.inl ?_⟩
      · change position ar ≤ offset
        omega
      · change offset + span.size ≤ position ar₃
        rw [hvalue, hat]
        unfold position
        dsimp only
        omega
      · change p < offset
        unfold reads parseField at hp
        rw [run_bind_ok htag] at hp
        dsimp only at hp
        rw [if_neg hone, if_pos htwo, run_bind_ok hn] at hp
        dsimp only at hp
        rw [run_bind_ok hoffset, run_bind_ok hspan] at hp
        rcases List.mem_append.mp hp with hp | hp
        · exact (hreads₁ p hp).2.trans_le (hle₂.trans hat.ge)
        · rcases List.mem_append.mp hp with hp | hp
          · exact (hreads₂ p hp).2.trans_le hat.ge
          · rcases List.mem_append.mp hp with hp | hp
            · cases List.mem_singleton.mp hp
            · rcases List.mem_append.mp hp with hp | hp
              · exact absurd hp (getSpan_unread n ar₂ hspan p)
              · exact absurd hp List.not_mem_nil
    · rw [if_neg hone, if_neg htwo] at hrest
      by_cases hthree : tag = 3
      · rw [if_pos hthree] at hrest
        obtain ⟨⟨n, ar₂⟩, -, hrest⟩ := outcome_bind hrest
        obtain ⟨offset, -, hrest⟩ := outcome_bind hrest
        obtain ⟨⟨span, ar₃⟩, -, hrest⟩ := outcome_bind hrest
        cases hrest
        exact Or.inl ⟨rfl, rfl⟩
      · rw [if_neg hthree] at hrest
        cases hrest

/-- A part of the parse reads between two positions, and finds no extra nonce or one of which it
reads nothing. -/
structure Visits (lo hi : ℕ) (reads : ℕ → Prop) (t t' : BlockTemplate) : Prop where
  le : lo ≤ hi
  within : ∀ p, reads p → lo ≤ p ∧ p < hi
  nonceOffset : t'.nonceOffset = t.nonceOffset
  minerTxPrefixOffset : t'.minerTxPrefixOffset = t.minerTxPrefixOffset
  nonce : SameNonce t t' ∨ NonceAt lo hi reads t'

theorem Visits.trans {lo mid hi : ℕ} {reads reads' : ℕ → Prop} {t t' t'' : BlockTemplate}
    (h : Visits lo mid reads t t') (h' : Visits mid hi reads' t' t'') :
    Visits lo hi (fun p => reads p ∨ reads' p) t t'' := by
  have hle := h.le
  have hle' := h'.le
  refine ⟨hle.trans hle', ?_, h'.nonceOffset.trans h.nonceOffset,
    h'.minerTxPrefixOffset.trans h.minerTxPrefixOffset, ?_⟩
  · rintro p (hp | hp)
    · exact ⟨(h.within p hp).1, (h.within p hp).2.trans_le hle'⟩
    · exact ⟨hle.trans (h'.within p hp).1, (h'.within p hp).2⟩
  · rcases h'.nonce with hsame | hat
    · rcases h.nonce with hsame₀ | hat
      · exact Or.inl ⟨hsame.1.trans hsame₀.1, hsame.2.trans hsame₀.2⟩
      · refine Or.inr ⟨?_, ?_, ?_⟩
        · rw [hsame.2]
          exact hat.start
        · rw [hsame.1, hsame.2]
          exact hat.stop.trans hle'
        · rw [hsame.1, hsame.2]
          rintro p (hp | hp)
          · exact hat.unread p hp
          · exact Or.inr (hat.stop.trans (h'.within p hp).1)
    · refine Or.inr ⟨hle.trans hat.start, hat.stop, ?_⟩
      rintro p (hp | hp)
      · exact Or.inl ((h.within p hp).2.trans_le hat.start)
      · exact hat.unread p hp

theorem Visits.congr {lo hi : ℕ} {reads reads' : ℕ → Prop} {t t' : BlockTemplate}
    (h : Visits lo hi reads t t') (hreads : ∀ p, reads' p → reads p) :
    Visits lo hi reads' t t' := by
  refine ⟨h.le, fun p hp => h.within p (hreads p hp), h.nonceOffset, h.minerTxPrefixOffset, ?_⟩
  rcases h.nonce with hsame | hat
  · exact Or.inl hsame
  · exact Or.inr ⟨hat.start, hat.stop, fun p hp => hat.unread p (hreads p hp)⟩

/-- A sequence reads what its parts read. -/
theorem reads_bind {α β : Type} {m : Read α} {f : α → Read β} {a : α}
    (h : (m.run (source data)).outcome = .ok a) (p : ℕ) :
    reads data (m >>= f) p ↔ reads data m p ∨ reads data (f a) p := by
  unfold reads
  rw [run_bind_ok h]
  exact List.mem_append

/-- A part that leaves the extra nonce alone. -/
theorem visits_of_scans {α : Type} {top lo : ℕ} {cursor : α → ℕ} {P : α → Prop} {m : Read α}
    (hscans : Scans data top lo cursor P m) (hlo : lo ≤ top) {a : α}
    (h : (m.run (source data)).outcome = .ok a) {t' : BlockTemplate} (hkeeps : P a → Keeps t t') :
    Visits lo (cursor a) (reads data m) t t' ∧ cursor a ≤ top := by
  obtain ⟨hle, htop, hreads, hP⟩ := hscans hlo a h
  exact ⟨⟨hle, hreads, (hkeeps hP).nonceOffset, (hkeeps hP).minerTxPrefixOffset,
    Or.inl (hkeeps hP).nonce⟩, htop⟩

theorem visits_unread {α : Type} {m : Read α} (h : ∀ p, ¬ reads data m p) (t : BlockTemplate)
    {lo hi : ℕ} (hle : lo ≤ hi) : Visits lo hi (reads data m) t t :=
  ⟨hle, fun p hp => absurd hp (h p), rfl, rfl, Or.inl ⟨rfl, rfl⟩⟩

theorem visits_pure {α : Type} (a : α) (t : BlockTemplate) {lo hi : ℕ} (hle : lo ≤ hi) :
    Visits lo hi (reads data (pure a : Read α)) t t :=
  visits_unread (fun _ => List.not_mem_nil) t hle

theorem visits_setOffset (value : ℕ) (t : BlockTemplate) (lo : ℕ) :
    Visits lo lo (reads data (setOffset value)) t t := by
  refine visits_unread (fun p hp => ?_) t le_rfl
  cases List.mem_singleton.mp hp

theorem Visits.seq {α β : Type} {m : Read α} {f : α → Read β} {a : α} {lo mid hi : ℕ}
    {t t' t'' : BlockTemplate} (h : (m.run (source data)).outcome = .ok a)
    (hm : Visits lo mid (reads data m) t t') (hf : Visits mid hi (reads data (f a)) t' t'') :
    Visits lo hi (reads data (m >>= f)) t t'' :=
  (hm.trans hf).congr fun p hp => (reads_bind h p).mp hp

theorem visits_parseField (hbase : t.txExtraOffset = base) (hsize : base + size < 2 ^ 32)
    (first : Bool) {ar : BlobReader base size} (hindex : ar.index ≤ size)
    {r : Bool × BlockTemplate × BlobReader base size}
    (h : ((parseField id first t ar).run (source data)).outcome = .ok r) :
    Visits (position ar) (position r.2.2) (reads data (parseField id first t ar)) t r.2.1 ∧
      r.2.2.index ≤ size ∧ KeepsExtra t r.2.1 := by
  have hstart : position ar ≤ base + size := Nat.add_le_add_left hindex base
  obtain ⟨hle, htop, hreads, hkeeps⟩ := scans_parseField first ar hstart r h
  refine ⟨⟨hle, hreads, hkeeps.nonceOffset, hkeeps.minerTxPrefixOffset,
    parseField_nonce hbase hsize first hindex h⟩, ?_, hkeeps⟩
  exact Nat.le_of_add_le_add_left htop

theorem visits_parseExtra (hsize : base + size < 2 ^ 32) {fuel : ℕ} (first : Bool)
    (hbase : t.txExtraOffset = base) (hextra : t.extraSize = size) {ar : BlobReader base size}
    (hindex : ar.index ≤ size) {t' : BlockTemplate}
    (h : ((parseExtra id fuel first t ar).run (source data)).outcome = .ok t') :
    Visits (position ar) (base + size) (reads data (parseExtra id fuel first t ar)) t t' := by
  induction fuel generalizing first t ar with
  | zero =>
      unfold parseExtra at h ⊢
      split at h
      · cases h
      · next hmore =>
        rw [if_neg hmore]
        cases h
        exact visits_pure _ _ (Nat.add_le_add_left hindex base)
  | succ fuel ih =>
      unfold parseExtra at h ⊢
      split at h
      · next hmore =>
        rw [if_pos hmore]
        obtain ⟨⟨first', t₁, ar₁⟩, hfield, hrest⟩ := outcome_bind h
        obtain ⟨hvisits, hindex₁, hkeeps⟩ := visits_parseField hbase hsize first hindex hfield
        dsimp only at hrest hvisits hindex₁ hkeeps
        have hbase₁ : t₁.txExtraOffset = base := hkeeps.txExtraOffset.trans hbase
        have hextra₁ : t₁.extraSize = size := hkeeps.extraSize.trans hextra
        exact Visits.seq hfield hvisits (ih first' hbase₁ hextra₁ hindex₁ hrest)
      · next hmore =>
        rw [if_neg hmore]
        cases h
        exact visits_pure _ _ (Nat.add_le_add_left hindex base)

theorem position_zero {size : ℕ} (ar : BlobReader 0 size) : position ar = ar.index := Nat.zero_add _

/-- The extra data is read where it stands, after the main reader has skipped it. -/
theorem visits_parseTxExtra {size fuel : ℕ} (hsize : size < 2 ^ 32) {ar : BlobReader 0 size}
    (hindex : ar.index ≤ size) {r : BlockTemplate × BlobReader 0 size}
    (h : ((parseTxExtra id fuel t ar).run (source data)).outcome = .ok r) :
    Visits ar.index r.2.index (reads data (parseTxExtra id fuel t ar)) t r.1 ∧
      r.2.index ≤ size := by
  have hstart : position ar ≤ 0 + size := Nat.add_le_add_left hindex 0
  obtain ⟨⟨extraSize, ar₁⟩, hn, hrest⟩ := outcome_bind h
  obtain ⟨hvisits₁, htop₁⟩ := visits_of_scans (scans_getVarint ar) hstart hn
    fun _ => keeps_refl t
  obtain ⟨txExtraOffset, hoffset, hrest⟩ := outcome_bind hrest
  dsimp only at hrest hvisits₁ htop₁
  obtain ⟨ar₂, hskip, hrest⟩ := outcome_bind hrest
  obtain ⟨hindex₂, hle₂, hunread⟩ := skip_unread extraSize ar₁ hskip
  obtain ⟨t', hextra, hrest⟩ := outcome_bind hrest
  cases hrest
  rw [position_zero] at hvisits₁ htop₁
  rw [position_zero] at hvisits₁
  have hat : txExtraOffset = ar₁.index := by
    cases hoffset
    exact Nat.mod_eq_of_lt (by omega)
  have hstop : txExtraOffset + extraSize = ar₂.index := by omega
  have hextraSize : txExtraOffset + extraSize < 2 ^ 32 := by omega
  have hvisits₂ := visits_parseExtra hextraSize true rfl rfl (Nat.zero_le _) hextra
  rw [hstop] at hvisits₂
  have hzero : position ({} : BlobReader txExtraOffset extraSize) = ar₁.index := by
    rw [← hat]
    rfl
  rw [hzero] at hvisits₂
  have hcopy : Visits ar₁.index ar₂.index (reads data (parseExtra id fuel true
      { t with
        extraSize
        txExtraOffset } ({} : BlobReader txExtraOffset extraSize))) t t' :=
    ⟨hvisits₂.le, hvisits₂.within, hvisits₂.nonceOffset, hvisits₂.minerTxPrefixOffset,
      hvisits₂.nonce⟩
  refine ⟨?_, hle₂⟩
  refine Visits.seq hn hvisits₁ (Visits.seq hoffset (visits_setOffset _ t _) ?_)
  apply Visits.seq hskip (visits_unread hunread t le_rfl)
  exact Visits.seq hextra hcopy (visits_pure _ t' le_rfl)

/-- The prefix of the miner transaction lies between the offsets that are kept for it. -/
theorem visits_parseMinerTx {size fuel : ℕ} {coin : Coin} (hsize : size < 2 ^ 32)
    {ar : BlobReader 0 size} (hindex : ar.index ≤ size) {r : BlockTemplate × BlobReader 0 size}
    (h : ((parseMinerTx id coin fuel t ar).run (source data)).outcome = .ok r) :
    Visits ar.index r.2.index (reads data (parseMinerTx id coin fuel t ar))
        { t with minerTxPrefixOffset := ar.index } r.1 ∧
      r.2.index ≤ size ∧ r.1.minerTxPrefixEndOffset = r.2.index := by
  obtain ⟨prefixOffset, hprefix, hrest⟩ := outcome_bind h
  have hat : prefixOffset = ar.index := by
    cases hprefix
    exact Nat.mod_eq_of_lt (hindex.trans_lt hsize)
  subst hat
  have hstart : position ar ≤ 0 + size := Nat.add_le_add_left hindex 0
  obtain ⟨⟨t₁, ar₁⟩, hinput, hrest⟩ := outcome_bind hrest
  obtain ⟨hvisits₁, htop₁⟩ := visits_of_scans (scans_parseInput ar) hstart hinput id
  dsimp only at hrest hvisits₁ htop₁
  obtain ⟨⟨t₂, ar₂⟩, houtput, hrest⟩ := outcome_bind hrest
  obtain ⟨hvisits₂, htop₂⟩ := visits_of_scans (scans_parseOutput ar₁) htop₁ houtput id
  dsimp only at hrest hvisits₂ htop₂
  have hindex₂ : ar₂.index ≤ size := Nat.le_of_add_le_add_left htop₂
  obtain ⟨⟨t₃, ar₃⟩, hextra, hrest⟩ := outcome_bind hrest
  obtain ⟨hvisits₃, hindex₃⟩ := visits_parseTxExtra hsize hindex₂ hextra
  dsimp only at hrest hvisits₃ hindex₃
  obtain ⟨ar₄, hprices, hrest⟩ := outcome_bind hrest
  obtain ⟨hvisits₄, htop₄⟩ := visits_of_scans (scans_parsePrices ar₃)
    (Nat.add_le_add_left hindex₃ 0) hprices fun _ => keeps_refl t₃
  obtain ⟨endOffset, hend, hrest⟩ := outcome_bind hrest
  cases hrest
  simp only [position_zero] at hvisits₁ hvisits₂ hvisits₄
  have hindex₄ : ar₄.index ≤ size := Nat.le_of_add_le_add_left htop₄
  have hat : endOffset = ar₄.index := by
    cases hend
    exact Nat.mod_eq_of_lt (hindex₄.trans_lt hsize)
  refine ⟨?_, hindex₄, hat⟩
  apply Visits.seq hprefix (visits_setOffset _ _ _)
  refine Visits.seq hinput hvisits₁ (Visits.seq houtput hvisits₂ ?_)
  refine Visits.seq hextra hvisits₃ (Visits.seq hprices hvisits₄ ?_)
  have hlast : Visits ar₄.index ar₄.index (reads data (pure
      ({ t₃ with minerTxPrefixEndOffset := endOffset }, ar₄) :
        Read (BlockTemplate × BlobReader 0 size))) t₃
      { t₃ with minerTxPrefixEndOffset := endOffset } :=
    ⟨le_rfl, fun _ hp => absurd hp List.not_mem_nil, rfl, rfl, Or.inl ⟨rfl, rfl⟩⟩
  exact Visits.seq hend (visits_setOffset _ t₃ _) hlast

end Extra

section Tail

variable {coin : Coin} {data : Buffer} {base size : ℕ} {t : BlockTemplate}

/-- What the end of the parse adds: the hashes stand at `lo` or behind and below `top`, and only a
Townforge template with a game update has none. -/
structure Ends (coin : Coin) (lo top : ℕ) (t : BlockTemplate)
    (r : BlockTemplate × Option (List Span)) : Prop where
  keeps : Keeps t r.1
  minerTxPrefixEndOffset : r.1.minerTxPrefixEndOffset = t.minerTxPrefixEndOffset
  height : r.1.height = t.height
  spans : ∀ spans, r.2 = some spans → (∀ s ∈ spans, lo ≤ s.start) ∧
    (isFcmp coin r.1 → lo ≤ r.1.fcmpTreeRoot.start) ∧ spans.length ≤ top
  early : r.2 = none → coin = .TOWNFORGE ∧ t.height % 720 = 0

theorem scans_end {α : Type} {top lo : ℕ} {P : α → Prop} {a : α} (h : P a) :
    Scans data top lo (fun _ => top) P (pure a) := by
  intro hlo b hb
  cases hb
  exact ⟨hlo, le_rfl, fun p hp => absurd hp List.not_mem_nil, h⟩

theorem scans_resize {top lo : ℕ} (capacity : ℕ) :
    Scans data top lo (fun _ => lo) (fun _ => True) (resize capacity) := by
  unfold resize
  exact Scans.ite (fun _ => scans_stop _) fun _ => scans_pure rfl trivial

theorem scans_hashInput {top lo : ℕ} (length start stop : ℕ) :
    Scans data top lo (fun _ => lo) (fun _ => True) (hashInput length start stop) := by
  unfold hashInput
  refine (scans_record fun p => by simp).bind fun _ _ _ _ => ?_
  exact Scans.ite (fun _ => scans_pure rfl trivial) fun _ => scans_stop _

theorem scans_store {top lo : ℕ} (start n capacity : ℕ) :
    Scans data top lo (fun _ => lo) (fun _ => True) (store start n capacity) := by
  unfold store
  refine (scans_record fun p => by simp).bind fun _ _ _ _ => ?_
  exact Scans.ite (fun _ => scans_pure rfl trivial) fun _ => scans_stop _

theorem scans_parseHashes (capacity left i : ℕ) (ar : BlobReader base size) :
    Scans data (base + size) (position ar) (fun p => position p.2)
      (fun p => (∀ s ∈ p.1, position ar ≤ s.start) ∧ position ar + p.1.length ≤ position p.2)
      (parseHashes id capacity left i ar) := by
  induction left generalizing i ar with
  | zero => exact scans_pure rfl ⟨fun s hs => absurd hs List.not_mem_nil, le_rfl⟩
  | succ left ih =>
      unfold parseHashes
      apply (scans_getSpan _ ar).bind
      rintro ⟨h, ar₁⟩ hle - ⟨hspan, hnext⟩
      have hnext : ar₁.index = ar.index + 32 := hnext
      dsimp only at hle hspan
      refine (scans_store _ _ _).bind fun _ _ _ _ => ?_
      apply (ih (i + 1) ar₁).bind
      rintro ⟨rest, ar₂⟩ - - ⟨hrest, hcount⟩
      refine scans_pure rfl ⟨fun s hs => ?_, ?_⟩
      · rcases List.mem_cons.mp hs with rfl | hs
        · rw [hspan]
        · exact hle.trans (hrest s hs)
      · unfold position at hcount ⊢
        dsimp only at hcount ⊢
        rw [List.length_cons]
        omega

theorem scans_parseFcmp (capacity : ℕ) (ar : BlobReader base size) :
    Scans data (base + size) (position ar) (fun p => position p.2)
      (fun p => Keeps t p.1 ∧ p.1.minerTxPrefixEndOffset = t.minerTxPrefixEndOffset ∧
        p.1.height = t.height ∧ (isFcmp coin p.1 → position ar ≤ p.1.fcmpTreeRoot.start))
      (parseFcmp id coin capacity t ar) := by
  unfold parseFcmp
  refine Scans.ite (fun _ => ?_) fun hno =>
    scans_pure rfl ⟨keeps_refl t, rfl, rfl, fun hyes => absurd hyes hno⟩
  apply (scans_getByte ar).bind
  rintro ⟨layers, ar₁⟩ hle - -
  apply (scans_getSpan _ ar₁).bind
  rintro ⟨root, ar₂⟩ - - ⟨hspan, -⟩
  dsimp only at hle hspan
  refine (scans_store _ _ _).bind fun _ _ _ _ => ?_
  refine (scans_store _ _ _).bind fun _ _ _ _ => ?_
  refine scans_pure rfl ⟨⟨rfl, rfl, rfl, rfl⟩, rfl, rfl, fun _ => ?_⟩
  change position ar ≤ root.start
  rw [hspan]
  exact hle

theorem scans_parseRoot (length : ℕ) (ar : BlobReader base size) :
    Scans data (base + size) (position ar) (fun _ => base + size)
      (Ends coin (position ar) (base + size) t)
      (parseRoot id coin length true t ar) := by
  unfold parseRoot parseRootHashes
  apply (scans_getVarint ar).bind
  rintro ⟨numHashes, ar₁⟩ hle₁ - -
  refine Scans.ite (fun _ => ?_) fun hno => absurd rfl hno
  refine (scans_resize _).bind fun _ _ _ _ => ?_
  refine (scans_hashInput _ _ _).bind fun _ _ _ _ => ?_
  refine (scans_store _ _ _).bind fun _ _ _ _ => ?_
  apply (scans_parseHashes _ _ _ ar₁).bind
  rintro ⟨spans, ar₂⟩ hle₂ htop₂ ⟨hspans, hcount⟩
  apply (scans_parseFcmp _ ar₂).bind
  rintro ⟨t', ar₃⟩ - - ⟨hkeeps, hend, hheight, hroot⟩
  dsimp only at hle₁ hle₂ htop₂ hspans hcount hkeeps hend hheight hroot
  refine scans_end ⟨⟨hkeeps.nonceOffset, hkeeps.minerTxPrefixOffset, hkeeps.nonce⟩, hend, hheight,
    ?_, nofun⟩
  rintro spans' heq
  cases heq
  exact ⟨fun s hs => hle₁.trans (hspans s hs), fun hyes => (hle₁.trans hle₂).trans (hroot hyes),
    (Nat.le_add_left _ _).trans (hcount.trans htop₂)⟩

/-- The end of the parse reads nothing before the end of the prefix. -/
theorem parseTail_spec {ar : BlobReader 0 size} (hindex : ar.index ≤ size)
    (hstart : t.minerTxPrefixEndOffset = ar.index) (length : ℕ)
    {r : BlockTemplate × Option (List Span)}
    (h : ((parseTail id coin length true t ar).run (source data)).outcome = .ok r) :
    (∀ p, reads data (parseTail id coin length true t ar) p → ar.index ≤ p) ∧
      Ends coin (ar.index + 1) size t r ∧
        (coin = .TOWNFORGE ∧ t.height % 720 = 0 → r.2 = none) := by
  have htop : position ar ≤ 0 + size := Nat.add_le_add_left hindex 0
  obtain ⟨⟨vinRctType, ar₁⟩, hbyte, hrest⟩ := outcome_bind h
  obtain ⟨hle₁, htop₁, hreads₁, -⟩ := scans_getByte ar htop _ hbyte
  dsimp only at hrest hle₁ htop₁ hreads₁
  rw [position_zero] at hle₁ hreads₁
  have hfirst : ∀ p, reads data (getByte ar) p → ar.index ≤ p := fun p hp => (hreads₁ p hp).1
  by_cases hearly : coin = .TOWNFORGE ∧ t.height % 720 = 0
  · rw [if_pos hearly] at hrest
    cases hrest
    refine ⟨fun p hp => ?_, ⟨keeps_refl t, rfl, rfl, nofun, fun _ => hearly⟩, fun _ => rfl⟩
    rcases (reads_bind hbyte p).mp hp with hp | hp
    · exact hfirst p hp
    · dsimp only at hp
      rw [if_pos hearly] at hp
      exact absurd hp List.not_mem_nil
  · rw [if_neg hearly] at hrest
    by_cases htype : vinRctType ≠ 0
    · rw [if_pos htype] at hrest
      cases hrest
    · rw [if_neg htype] at hrest
      by_cases hnext : ar₁.index ≠ t.minerTxPrefixEndOffset + 1
      · rw [if_pos hnext] at hrest
        cases hrest
      · rw [if_neg hnext] at hrest
        obtain ⟨⟨byte, last⟩, hlast, hrest⟩ := outcome_bind hrest
        dsimp only at hrest
        by_cases hzero : byte ≠ 0
        · rw [if_pos hzero] at hrest
          cases hrest
        · rw [if_neg hzero] at hrest
          have hat : ar₁.index = ar.index + 1 := by omega
          obtain ⟨-, -, hreads₂, hends⟩ := scans_parseRoot length ar₁ htop₁ r hrest
          rw [position_zero, hat] at hreads₂ hends
          rw [Nat.zero_add] at hends
          refine ⟨fun p hp => ?_, hends, fun h => absurd h hearly⟩
          rcases (reads_bind hbyte p).mp hp with hp | hp
          · exact hfirst p hp
          · dsimp only at hp
            rw [if_neg hearly, if_neg htype, if_neg hnext] at hp
            rcases (reads_bind hlast p).mp hp with hp | hp
            · have hinside : position ({} : BlobReader t.minerTxPrefixEndOffset 1) ≤
                  t.minerTxPrefixEndOffset + 1 := Nat.le_succ _
              obtain ⟨-, -, hreads₃, -⟩ := scans_getByte _ hinside _ hlast
              exact hstart.symm.trans_le (hreads₃ p hp).1
            · dsimp only at hp
              rw [if_neg hzero] at hp
              exact (Nat.le_succ _).trans (hreads₂ p hp).1

end Tail

section Blob

variable {coin : Coin} {data : Buffer}

/-- The layout of a template: the nonce stands before the miner transaction, the extra nonce inside
its prefix and the hashes behind it, and the parse reads neither of the two. -/
structure Laid (coin : Coin) (length : ℕ) (reads : ℕ → Prop)
    (r : BlockTemplate × Option (List Span)) : Prop where
  nonce : r.1.nonceOffset + kNonceSize ≤ r.1.minerTxPrefixOffset
  nonce_unread : ∀ p, reads p → p < r.1.nonceOffset ∨ r.1.nonceOffset + kNonceSize ≤ p
  prefix_le : r.1.minerTxPrefixOffset ≤ r.1.minerTxPrefixEndOffset
  end_le : r.1.minerTxPrefixEndOffset ≤ length
  extraNonce : 0 < r.1.txExtraNonce.size →
    NonceAt r.1.minerTxPrefixOffset r.1.minerTxPrefixEndOffset reads r.1
  spans : ∀ spans, r.2 = some spans → (∀ s ∈ spans, r.1.minerTxPrefixEndOffset < s.start) ∧
    (isFcmp coin r.1 → r.1.minerTxPrefixEndOffset < r.1.fcmpTreeRoot.start) ∧
    spans.length ≤ length
  early : r.2 = none ↔ coin = .TOWNFORGE ∧ r.1.height % 720 = 0

theorem laid_parseBlob (hsize : data.length < 2 ^ 32) (fuel : ℕ)
    {r : BlockTemplate × Option (List Span)}
    (h : ((parseBlob id coin data.length fuel true).run (source data)).outcome = .ok r) :
    Laid coin data.length (reads data (parseBlob id coin data.length fuel true)) r := by
  obtain ⟨⟨t₁, ar₁⟩, hheader, hrest⟩ := outcome_bind h
  obtain ⟨-, htop₁, hreads₁, hoffset, hnone⟩ :=
    scans_parseHeader ({} : BlobReader 0 data.length) (Nat.zero_le _) _ hheader
  dsimp only at hrest htop₁ hreads₁ hoffset hnone
  simp only [position_zero] at hreads₁ htop₁
  obtain ⟨ar₂, hskip, hrest⟩ := outcome_bind hrest
  obtain ⟨hindex₂, hle₂, hunread⟩ := skip_unread kNonceSize ar₁ hskip
  obtain ⟨⟨t₃, ar₃⟩, hsignature, hrest⟩ := outcome_bind hrest
  have htop₂ : position ar₂ ≤ 0 + data.length := Nat.add_le_add_left hle₂ 0
  obtain ⟨-, -, -, hkeeps₃⟩ := scans_parseSignature ar₂ htop₂ _ hsignature
  obtain ⟨hvisits₃, htop₃⟩ := visits_of_scans (scans_parseSignature ar₂) htop₂ hsignature id
  dsimp only at hrest hvisits₃ htop₃
  obtain ⟨ar₄, hpricing, hrest⟩ := outcome_bind hrest
  obtain ⟨hvisits₄, htop₄⟩ := visits_of_scans (scans_parsePricingRecord ar₃) htop₃ hpricing
    fun _ => keeps_refl t₃
  obtain ⟨⟨t₅, ar₅⟩, htx, htail⟩ := outcome_bind hrest
  have hindex₄ : ar₄.index ≤ data.length := Nat.le_of_add_le_add_left htop₄
  obtain ⟨hvisits₅, hindex₅, hend⟩ := visits_parseMinerTx hsize hindex₄ htx
  dsimp only at htail hvisits₅ hindex₅ hend
  simp only [position_zero] at hvisits₃ hvisits₄
  obtain ⟨hreads₆, hends, hlast⟩ := parseTail_spec hindex₅ hend data.length htail
  -- where everything stands
  have hnonce : t₁.nonceOffset = ar₁.index := hoffset.trans (Nat.mod_eq_of_lt (by omega))
  have hkept : r.1.nonceOffset = ar₁.index := by
    rw [hends.keeps.nonceOffset, hvisits₅.nonceOffset]
    exact hvisits₃.nonceOffset.trans hnonce
  have hpart : r.1.minerTxPrefixOffset = ar₄.index := by
    rw [hends.keeps.minerTxPrefixOffset, hvisits₅.minerTxPrefixOffset]
  have hstop : r.1.minerTxPrefixEndOffset = ar₅.index := hends.minerTxPrefixEndOffset.trans hend
  have hsize₂ : ar₂.index = ar₁.index + 4 := hindex₂
  have hle₃ := hvisits₃.le
  have hle₄ := hvisits₄.le
  have hle₅ := hvisits₅.le
  have hreads : ∀ p, reads data (parseBlob id coin data.length fuel true) p →
      p < ar₁.index ∨ (ar₂.index ≤ p ∧ p < ar₄.index) ∨
        reads data (parseMinerTx id coin fuel t₃ ar₄) p ∨ ar₅.index ≤ p := by
    intro p hp
    rcases (reads_bind hheader p).mp hp with hp | hp
    · exact Or.inl (hreads₁ p hp).2
    rcases (reads_bind hskip p).mp hp with hp | hp
    · exact absurd hp (hunread p)
    rcases (reads_bind hsignature p).mp hp with hp | hp
    · exact Or.inr (Or.inl ⟨(hvisits₃.within p hp).1, (hvisits₃.within p hp).2.trans_le hle₄⟩)
    rcases (reads_bind hpricing p).mp hp with hp | hp
    · exact Or.inr (Or.inl ⟨hle₃.trans (hvisits₄.within p hp).1, (hvisits₄.within p hp).2⟩)
    rcases (reads_bind htx p).mp hp with hp | hp
    · exact Or.inr (Or.inr (Or.inl hp))
    · exact Or.inr (Or.inr (Or.inr (hreads₆ p hp)))
  refine ⟨?_, ?_, ?_, ?_, ?_, ?_, ?_⟩
  · rw [hkept, hpart]
    exact hsize₂.symm.trans_le (hle₃.trans hle₄)
  · intro p hp
    rw [hkept]
    change p < ar₁.index ∨ ar₁.index + 4 ≤ p
    rcases hreads p hp with hp | hp | hp | hp
    · exact Or.inl hp
    · exact Or.inr (by omega)
    · have hwithin := hvisits₅.within p hp
      exact Or.inr (by omega)
    · exact Or.inr (by omega)
  · rw [hpart, hstop]
    exact hle₅
  · rw [hstop]
    exact hindex₅
  · intro hpos
    rw [hpart, hstop]
    rcases hvisits₅.nonce with hsame | hat
    · have hempty : r.1.txExtraNonce = {} := by
        rw [hends.keeps.nonce.1, hsame.1]
        exact hkeeps₃.nonce.1.trans hnone
      rw [hempty] at hpos
      exact absurd hpos (Nat.lt_irrefl 0)
    · refine ⟨?_, ?_, ?_⟩
      · rw [hends.keeps.nonce.2]
        exact hat.start
      · rw [hends.keeps.nonce.1, hends.keeps.nonce.2]
        exact hat.stop
      · rw [hends.keeps.nonce.1, hends.keeps.nonce.2]
        intro p hp
        have hstart := hat.start
        have hbelow := hat.stop
        rcases hreads p hp with hp | hp | hp | hp
        · exact Or.inl (by omega)
        · exact Or.inl (by omega)
        · exact hat.unread p hp
        · exact Or.inr (by omega)
  · rw [hstop]
    exact hends.spans
  · rw [hends.height]
    exact ⟨hends.early, hlast⟩

end Blob

section Parse

variable {coin : Coin} {keccak : Buffer → Hash} {data : Buffer} {fuel : ℕ} {t : BlockTemplate}

theorem parse_eq (hmin : ¬ data.length < kMinSize) :
    parse coin keccak data fuel true =
      (parseBlob word64 coin data.length fuel true).run (source data) >>= fun p =>
        pure (withRoot coin keccak data p) := by
  unfold parse
  rw [if_neg hmin]

/-- A safe template is read with an unbounded cursor, whatever the fuel was that sufficed. -/
theorem run_parseBlob (hsafe : ParsesSafely coin keccak data true) (hmin : ¬ data.length < kMinSize)
    {r : BlockTemplate × Option (List Span)}
    (h : ((parseBlob word64 coin data.length fuel true).run (source data)).outcome = .ok r) :
    (parseBlob word64 coin data.length fuel true).run (source data) =
      (parseBlob id coin data.length data.length true).run (source data) := by
  have hfits := (parsesSafely_iff coin keccak data true).mp hsafe
  have hideal : Ideal data (fun _ => True) (parseBlob word64 coin data.length data.length true)
      (parseBlob id coin data.length data.length true) := ideal_parseBlob (Nat.le_refl _) true
  have hgrows : ∀ {f f' : ℕ}, f ≤ f' → Grows data (parseBlob word64 coin data.length f true)
      (parseBlob word64 coin data.length f' true) := fun hle => grows_parseBlob hle data.length true
  rcases hideal with ⟨heq, -, hstops, -⟩ | ⟨⟨x, hx, hnot⟩, -⟩
  · rw [← heq] at hstops ⊢
    rcases Nat.le_total fuel data.length with hle | hle
    · rcases hgrows hle with hsame | ⟨hrunning, -⟩
      · exact hsame
      · rw [hrunning] at h
        cases h
    · rcases hgrows hle with hsame | ⟨hrunning, -⟩
      · exact hsame.symm
      · rcases hstops .running hrunning with hno | hno <;> cases hno
  · refine absurd (hfits x ?_) hnot
    unfold layout
    rw [if_neg hmin]
    exact Traced.log_bind_left hx

/-- What was parsed safely has the layout of a template. -/
theorem laid_of_parse (hsafe : ParsesSafely coin keccak data true) (hsize : data.length < 2 ^ 32)
    (h : (parse coin keccak data fuel true).outcome = .ok t) :
    ¬ data.length < kMinSize ∧ ∃ r, t = withRoot coin keccak data r ∧
      ((parseBlob word64 coin data.length fuel true).run (source data)).outcome = .ok r ∧
      Laid coin data.length (reads data (parseBlob word64 coin data.length fuel true)) r := by
  have hmin : ¬ data.length < kMinSize := by
    intro hmin
    unfold parse at h
    rw [if_pos hmin] at h
    cases h
  rw [parse_eq hmin] at h
  obtain ⟨r, hr, ht⟩ := Traced.outcome_bind_ok h
  cases ht
  refine ⟨hmin, r, rfl, hr, ?_⟩
  have hrun := run_parseBlob hsafe hmin hr
  unfold reads
  rw [hrun] at hr ⊢
  exact laid_parseBlob hsize data.length hr

end Parse

end BlockTemplate

end XmrigProxy
