import XmrigProxy.BlockTemplate

/-! The Merkle root of a template is the tree hash of the leaves of its block: the coinbase, the
transaction hashes behind the miner transaction, and for FCMP++ the tree layers and the tree root
that follow them. -/
namespace XmrigProxy

namespace BlockTemplate

open BlobReader Merkle
open Ask (record question)
open Traced (Yields)

/-- The bytes of the varint at a position: all that say that another one follows, and the next. -/
def varintBytes (data : Buffer) (position : ℕ) : Buffer :=
  let rest := data.drop position
  rest.take ((rest.takeWhile fun b => 128 ≤ b.toNat).length + 1)

/-- Seven bits a byte, the lowest ones first. -/
def varintValue : Buffer → ℕ
  | [] => 0
  | b :: rest => b.toNat % 128 + 128 * varintValue rest

theorem varintValue_cons (b : UInt8) (rest : Buffer) :
    varintValue (b :: rest) = b.toNat % 128 + 128 * varintValue rest := rfl

/-- The result of the program on this blob, if there is one, satisfies `Q`. -/
def Gives (data : Buffer) {α : Type} (Q : α → Prop) (m : Read α) : Prop :=
  Yields Q (m.run (source data))

section Rules

variable {data : Buffer} {α β : Type} {Q : α → Prop} {R : β → Prop} {m : Read α}

theorem Gives.bind {f : α → Read β} (hm : Gives data Q m) (hf : ∀ a, Q a → Gives data R (f a)) :
    Gives data R (m >>= f) := by
  unfold Gives
  rw [Ask.run_bind]
  exact Yields.bind hm hf

theorem Gives.mono {Q' : α → Prop} (hm : Gives data Q m) (h : ∀ a, Q a → Q' a) :
    Gives data Q' m :=
  Yields.mono hm h

theorem Gives.ite {c : Prop} [Decidable c] {m' : Read α} (ht : c → Gives data Q m)
    (hf : ¬ c → Gives data Q m') : Gives data Q (if c then m else m') := by
  by_cases hc : c
  · rw [if_pos hc]
    exact ht hc
  · rw [if_neg hc]
    exact hf hc

theorem gives_pure {a : α} (h : Q a) : Gives data Q (pure a) := Traced.yields_pure h

theorem gives_stop (e : Stop) : Gives data Q (.stop e : Read α) := Traced.yields_stop e

theorem gives_any (m : Read α) : Gives data (fun _ => True) m := fun _ _ => trivial

theorem gives_question (position : ℕ) :
    Gives data (fun b => data[position]? = some b) (question position) := by
  intro b hb
  cases hget : data[position]? with
  | none =>
      have hanswer : (source data).answer position = .error .undefined := by
        unfold source
        dsimp only
        rw [hget]
      unfold question at hb
      rw [Ask.run_ask_error hanswer] at hb
      cases hb
  | some c =>
      have hanswer : (source data).answer position = .ok c := by
        unfold source
        dsimp only
        rw [hget]
      unfold question at hb
      rw [Ask.run_ask hanswer] at hb
      cases hb
      rfl

end Rules

section Readers

variable {data : Buffer} {base size : ℕ}

theorem gives_getByte (ar : BlobReader base size) :
    Gives data (fun p => data[base + ar.index]? = some p.1 ∧ p.2.index = ar.index + 1 ∧
      p.2.index ≤ size) (getByte ar) := by
  unfold getByte
  refine Gives.ite (fun _ => gives_stop _) fun hend => ?_
  refine (gives_question _).bind fun b hb => ?_
  refine (gives_any _).bind fun _ _ => gives_pure ⟨hb, rfl, ?_⟩
  change ar.index + 1 ≤ size
  omega

theorem drop_of_getElem? {position : ℕ} {b : UInt8} (h : data[position]? = some b) :
    data.drop position = b :: data.drop (position + 1) := by
  obtain ⟨hlt, hb⟩ := List.getElem?_eq_some_iff.mp h
  rw [List.drop_eq_getElem_cons hlt, hb]

theorem varintBytes_last {position : ℕ} {b : UInt8} (h : data[position]? = some b)
    (hlast : ¬ 128 ≤ b.toNat) : varintBytes data position = [b] := by
  unfold varintBytes
  rw [drop_of_getElem? h]
  simp [hlast]

theorem varintBytes_more {position : ℕ} {b : UInt8} (h : data[position]? = some b)
    (hmore : 128 ≤ b.toNat) :
    varintBytes data position = b :: varintBytes data (position + 1) := by
  unfold varintBytes
  rw [drop_of_getElem? h]
  simp [hmore]

/-- Placing seven bits above the ones that are there adds them. -/
theorem or_shiftLeft {result shift : ℕ} (x : ℕ) (hshift : shift < 64)
    (hresult : result < 2 ^ shift) :
    result ||| x <<< shift % 2 ^ 64 = (result + 2 ^ shift * x) % 2 ^ 64 := by
  have hpow : 2 ^ 64 = 2 ^ shift * 2 ^ (64 - shift) := by
    rw [← Nat.pow_add]
    congr 1
    omega
  have hhigh : x <<< shift % 2 ^ 64 = 2 ^ shift * (x % 2 ^ (64 - shift)) := by
    rw [Nat.shiftLeft_eq, Nat.mul_comm, hpow, Nat.mul_mod_mul_left]
  have hlow : result < 2 ^ 64 :=
    hresult.trans_le (Nat.pow_le_pow_right Nat.two_pos (by omega))
  rw [hhigh, Nat.or_comm, ← Nat.two_pow_add_eq_or_of_lt hresult, Nat.add_mod, Nat.mod_eq_of_lt hlow,
    hpow, Nat.mul_mod_mul_left, Nat.add_comm]
  refine (Nat.mod_eq_of_lt ?_).symm
  have hx := Nat.mod_lt x (Nat.two_pow_pos (64 - shift))
  calc result + 2 ^ shift * (x % 2 ^ (64 - shift))
      < 2 ^ shift + 2 ^ shift * (x % 2 ^ (64 - shift)) := Nat.add_lt_add_right hresult _
    _ = 2 ^ shift * (x % 2 ^ (64 - shift) + 1) := by ring
    _ ≤ 2 ^ shift * 2 ^ (64 - shift) := Nat.mul_le_mul_left _ hx

/-- Bits above those that are there take no other place. -/
theorem or_shiftLeft_lt {result shift x : ℕ} (hresult : result < 2 ^ shift) :
    result ||| (x % 128) <<< shift % 2 ^ 64 < 2 ^ (shift + 7) := by
  have hlow : result < 2 ^ (shift + 7) :=
    hresult.trans_le (Nat.pow_le_pow_right Nat.two_pos (Nat.le_add_right _ _))
  refine Nat.or_lt_two_pow hlow ((Nat.mod_le _ _).trans_lt ?_)
  rw [Nat.shiftLeft_eq, Nat.mul_comm, Nat.pow_add]
  exact Nat.mul_lt_mul_of_pos_left (Nat.mod_lt _ (by decide)) (Nat.two_pow_pos shift)

theorem gives_varintLoop {left shift : ℕ} (hshift : shift + 7 * left = 70) {result : ℕ}
    (hresult : left ≠ 0 → result < 2 ^ shift) (ar : BlobReader base size) :
    Gives data (fun p =>
        p.1 = (result + 2 ^ shift * varintValue (varintBytes data (base + ar.index))) % 2 ^ 64 ∧
        p.2.index = ar.index + (varintBytes data (base + ar.index)).length ∧ p.2.index ≤ size)
      (varintLoop left shift result ar) := by
  induction left generalizing shift result ar with
  | zero =>
      unfold varintLoop
      refine (gives_any _).bind ?_
      rintro ⟨t, ar'⟩ -
      exact (gives_any _).bind fun _ _ => gives_stop _
  | succ left ih =>
      unfold varintLoop
      refine (gives_getByte ar).bind ?_
      rintro ⟨t, ar'⟩ ⟨hbyte, hindex, hsize⟩
      dsimp only at hbyte hindex hsize
      refine (gives_any _).bind fun _ _ => ?_
      have hor := or_shiftLeft (t.toNat % 128) (by omega) (hresult (Nat.succ_ne_zero left))
      refine Gives.ite (fun hmore => ?_) fun hlast => ?_
      · have hbytes := varintBytes_more hbyte hmore
        rw [Nat.add_assoc, ← hindex] at hbytes
        have hnext : left ≠ 0 →
            result ||| (t.toNat % 128) <<< shift % 2 ^ 64 < 2 ^ (shift + 7) := fun _ =>
          or_shiftLeft_lt (hresult (Nat.succ_ne_zero left))
        have hshift' : shift + 7 + 7 * left = 70 := by omega
        refine (ih hshift' hnext ar').mono ?_
        rintro ⟨n, ar''⟩ ⟨hvalue, hindex', hsize'⟩
        dsimp only at hvalue hindex' hsize'
        refine ⟨?_, ?_, hsize'⟩
        · dsimp only
          rw [hvalue, hor, hbytes, Nat.mod_add_mod]
          rw [varintValue_cons]
          congr 1
          ring
        · dsimp only
          rw [hindex', hbytes, List.length_cons, hindex]
          omega
      · have hbytes := varintBytes_last hbyte hlast
        refine gives_pure ⟨?_, ?_, hsize⟩
        · dsimp only
          rw [hor, hbytes]
          rfl
        · dsimp only
          rw [hindex, hbytes]
          rfl

theorem gives_getVarint (ar : BlobReader base size) :
    Gives data (fun p =>
        p.1 = varintValue (varintBytes data (base + ar.index)) % 2 ^ 64 ∧
        p.2.index = ar.index + (varintBytes data (base + ar.index)).length ∧ p.2.index ≤ size)
      (getVarint ar) := by
  refine (gives_varintLoop rfl (fun _ => Nat.one_pos) ar).mono ?_
  rintro ⟨n, ar'⟩ ⟨hvalue, hindex, hsize⟩
  refine ⟨?_, hindex, hsize⟩
  rw [Nat.pow_zero, Nat.zero_add, Nat.one_mul] at hvalue
  exact hvalue

/-- No sum wraps while the cursor is inside a blob of this size. -/
theorem gives_getSpan {ar : BlobReader base size} (hindex : ar.index ≤ size) (hsize : size < 2 ^ 63)
    {n : ℕ} (hn : n < 2 ^ 63) :
    Gives data (fun p => p.1 = ⟨base + ar.index, n⟩ ∧ p.2.index = ar.index + n ∧
      p.2.index ≤ size) (getSpan word64 n ar) := by
  have hword : word64 (ar.index + n) = ar.index + n := Nat.mod_eq_of_lt (by omega)
  have hskip : Gives data (fun next => next.index = ar.index + n ∧ next.index ≤ size)
      (skip word64 n ar) := by
    unfold skip
    dsimp only
    rw [hword]
    refine (gives_any _).bind fun _ _ => ?_
    refine Gives.ite (fun _ => gives_stop _) fun hend => ?_
    exact (gives_any _).bind fun _ _ => gives_pure ⟨rfl, Nat.le_of_not_lt hend⟩
  unfold getSpan
  refine hskip.bind ?_
  rintro next ⟨hnext, hinside⟩
  exact (gives_any _).bind fun _ _ => gives_pure ⟨rfl, hnext, hinside⟩

end Readers

section Hashes

variable {coin : Coin} {data : Buffer} {base size : ℕ} {t : BlockTemplate}

theorem gives_hashInput (length start stop : ℕ) :
    Gives data (fun _ => start + inputLength start stop ≤ length)
      (hashInput length start stop) := by
  unfold hashInput
  refine (gives_any _).bind fun _ _ => ?_
  exact Gives.ite (fun hinside => gives_pure hinside) fun _ => gives_stop _

theorem gives_parseHashes (capacity left i : ℕ) {ar : BlobReader base size}
    (hindex : ar.index ≤ size) (hsize : size < 2 ^ 63) :
    Gives data (fun p =>
        p.1 = (List.range left).map (fun k => ⟨base + ar.index + kHashSize * k, kHashSize⟩) ∧
        p.2.index = ar.index + kHashSize * left ∧ p.2.index ≤ size)
      (parseHashes word64 capacity left i ar) := by
  induction left generalizing i ar with
  | zero => exact gives_pure ⟨rfl, rfl, hindex⟩
  | succ left ih =>
      unfold parseHashes
      refine (gives_getSpan hindex hsize (by decide)).bind ?_
      rintro ⟨h, ar'⟩ ⟨hspan, hnext, hinside⟩
      dsimp only at hspan hnext hinside
      refine (gives_any _).bind fun _ _ => ?_
      refine (ih (i + 1) hinside).bind ?_
      rintro ⟨rest, ar''⟩ ⟨hrest, hend, hinside'⟩
      dsimp only at hrest hend hinside'
      refine gives_pure ⟨?_, ?_, hinside'⟩
      · dsimp only
        rw [List.range_succ_eq_map, List.map_cons, List.map_map, hspan, hrest, hnext]
        congr 1
        refine List.map_congr_left fun k _ => ?_
        dsimp only [Function.comp]
        rw [Nat.mul_succ]
        congr 1
        omega
      · dsimp only
        rw [hend, hnext, Nat.mul_succ]
        omega

/-- The layers and the root of the tree are all that this adds to the template. -/
theorem gives_parseFcmp (capacity : ℕ) {ar : BlobReader base size} (hsize : size < 2 ^ 63) :
    Gives data (fun p => if isFcmp coin t then
        ∃ layers root, data[base + ar.index]? = some layers ∧ root.start = base + ar.index + 1 ∧
          p.1 = { t with
            fcmpTreeLayers := layers
            fcmpTreeRoot := root }
      else p.1 = t) (parseFcmp word64 coin capacity t ar) := by
  unfold parseFcmp
  by_cases hfcmp : isFcmp coin t
  · simp only [hfcmp, if_true]
    refine (gives_getByte ar).bind ?_
    rintro ⟨layers, ar'⟩ ⟨hbyte, hnext, hinside⟩
    dsimp only at hbyte hnext hinside
    refine (gives_getSpan hinside hsize (by decide)).bind ?_
    rintro ⟨root, ar''⟩ ⟨hspan, -, -⟩
    refine (gives_any _).bind fun _ _ => ?_
    refine (gives_any _).bind fun _ _ => gives_pure ⟨layers, root, hbyte, ?_, rfl⟩
    dsimp only at hspan
    rw [hspan, hnext]
    rfl
  · simp only [hfcmp]
    exact gives_pure rfl

end Hashes

section Leaves

variable {coin : Coin} {keccak : Buffer → Hash} {data : Buffer} {t : BlockTemplate}

variable (coin keccak data) in
/-- The leaves of the block that a template was read from: the coinbase is the miner transaction
between the ends of its prefix, one zero byte ends it, and the counted hashes follow. -/
def blockLeaves (t : BlockTemplate) : List Hash :=
  let stop := t.minerTxPrefixEndOffset
  let counter := varintBytes data (stop + 1)
  let numHashes := varintValue counter % 2 ^ 64
  let others := stop + 1 + counter.length
  let tree := others + kHashSize * numHashes
  let coinbase := calculateMinerTxHash keccak
    (slice data t.minerTxPrefixOffset (stop - t.minerTxPrefixOffset))
  let txHashes := (List.range numHashes).map fun i => hashAt data (others + kHashSize * i)
  if coin = .MONERO ∧ 17 ≤ t.majorVersion then
    Hash.mk (data[tree]! :: List.replicate 31 0) rfl :: hashAt data
      (tree + 1) :: coinbase :: txHashes
  else coinbase :: txHashes

/-- What is hashed of a template of this size is what stands between the offsets. -/
theorem inputLength_of_inside {start stop length : ℕ} (hlength : length < 2 ^ 31)
    (hstop : stop < length) (hinside : start + inputLength start stop ≤ length) :
    inputLength start stop = stop - start := by
  unfold inputLength at hinside ⊢
  dsimp only at hinside ⊢
  have hmod : ((stop : ℤ) - start).bmod (2 ^ 32) = (stop : ℤ) - start := by
    refine Int.bmod_eq_of_le ?_ ?_
    · omega
    · omega
  rw [hmod] at hinside ⊢
  split at hinside
  · next hle =>
    rw [if_pos hle]
    omega
  · omega

variable (coin keccak data) in
/-- The root of the template is computed from the leaves of its block. -/
def HasRoot (p : BlockTemplate × Option (List Span)) : Prop :=
  (withRoot coin keccak data p).merkle =
    calculateMerkleTreeHash keccak (blockLeaves coin keccak data (withRoot coin keccak data p))
      (coinbaseTxIndex coin (withRoot coin keccak data p))

/-- Where the hashes of a block start, behind their number. -/
def othersOffset (data : Buffer) (t : BlockTemplate) : ℕ :=
  t.minerTxPrefixEndOffset + 1 + (varintBytes data (t.minerTxPrefixEndOffset + 1)).length

theorem leaves_eq {spans : List Span} {numHashes : ℕ}
    (hnum : numHashes = varintValue (varintBytes data (t.minerTxPrefixEndOffset + 1)) % 2 ^ 64)
    (hspans : spans = (List.range numHashes).map
      fun k => ⟨othersOffset data t + kHashSize * k, kHashSize⟩)
    (hsizes : inputLength t.minerTxPrefixOffset t.minerTxPrefixEndOffset =
      t.minerTxPrefixEndOffset - t.minerTxPrefixOffset)
    (hfcmp : isFcmp coin t →
      data[othersOffset data t + kHashSize * numHashes]? = some t.fcmpTreeLayers ∧
      t.fcmpTreeRoot.start = othersOffset data t + kHashSize * numHashes + 1) :
    leaves coin keccak data t spans = blockLeaves coin keccak data t := by
  have hversion : isFcmp coin t = true ↔ coin = .MONERO ∧ 17 ≤ t.majorVersion :=
    decide_eq_true_iff
  have hothers : spans.map (fun h => hashAt data h.start) = (List.range numHashes).map fun i =>
      hashAt data (othersOffset data t + kHashSize * i) := by
    rw [hspans, List.map_map]
    rfl
  unfold leaves blockLeaves
  dsimp only
  rw [hothers, hsizes, ← hnum]
  by_cases hyes : isFcmp coin t = true
  · obtain ⟨hlayers, hroot⟩ := hfcmp hyes
    have hget : data[othersOffset data t + kHashSize * numHashes]! = t.fcmpTreeLayers := by
      rw [List.getElem!_eq_getElem?_getD, hlayers]
      rfl
    rw [if_pos hyes, if_pos (hversion.mp hyes), ← hget, hroot]
    rfl
  · rw [if_neg hyes, if_neg (mt hversion.mpr hyes)]
    rfl

theorem hasRoot_of_leaves {spans : List Span}
    (h : leaves coin keccak data t spans = blockLeaves coin keccak data t) :
    HasRoot coin keccak data (t, some spans) := by
  unfold HasRoot withRoot
  dsimp only
  rw [h]
  rfl

theorem gives_parseRoot (hsize : data.length < 2 ^ 31) {ar : BlobReader 0 data.length}
    (hstart : ar.index = t.minerTxPrefixEndOffset + 1) (hle : ar.index ≤ data.length) :
    Gives data (HasRoot coin keccak data) (parseRoot word64 coin data.length true t ar) := by
  have hsize' : data.length < 2 ^ 63 := hsize.trans (by decide)
  unfold parseRoot parseRootHashes
  refine (gives_getVarint ar).bind ?_
  rintro ⟨numHashes, ar₁⟩ ⟨hvalue, hcounter, hle₁⟩
  dsimp only at hvalue hcounter hle₁
  rw [Nat.zero_add, hstart] at hvalue hcounter
  refine (gives_any _).bind fun _ _ => ?_
  refine (gives_hashInput _ _ _).bind fun _ hinput => ?_
  refine (gives_any _).bind fun _ _ => ?_
  refine (gives_parseHashes _ _ _ hle₁ hsize').bind ?_
  rintro ⟨spans, ar₂⟩ ⟨hspans, hend, -⟩
  dsimp only at hspans hend hinput
  rw [Nat.zero_add, hcounter] at hspans
  refine (gives_parseFcmp _ hsize').bind ?_
  rintro ⟨t', ar₃⟩ hfcmp
  have hsizes := inputLength_of_inside hsize (by omega) hinput
  dsimp only at hfcmp
  rw [Nat.zero_add, hend, hcounter] at hfcmp
  refine gives_pure (hasRoot_of_leaves ?_)
  split at hfcmp
  · obtain ⟨layers, root, hlayers, hroot, rfl⟩ := hfcmp
    exact leaves_eq hvalue hspans hsizes fun _ => ⟨hlayers, hroot⟩
  · next hno =>
    subst hfcmp
    exact leaves_eq hvalue hspans hsizes fun hyes => absurd hyes hno

theorem gives_parseTail (hsize : data.length < 2 ^ 31) (hcoin : coin ≠ .TOWNFORGE)
    (ar : BlobReader 0 data.length) :
    Gives data (HasRoot coin keccak data) (parseTail word64 coin data.length true t ar) := by
  unfold parseTail
  refine (gives_getByte ar).bind ?_
  rintro ⟨vinRctType, ar₁⟩ ⟨-, -, hle⟩
  refine Gives.ite (fun hearly => absurd hearly.1 hcoin) fun _ => ?_
  refine Gives.ite (fun _ => gives_stop _) fun _ => ?_
  refine Gives.ite (fun _ => gives_stop _) fun hend => ?_
  refine (gives_any _).bind ?_
  rintro ⟨byte, last⟩ -
  exact Gives.ite (fun _ => gives_stop _) fun _ => gives_parseRoot hsize (not_not.mp hend) hle

theorem gives_parseBlob (hsize : data.length < 2 ^ 31) (hcoin : coin ≠ .TOWNFORGE) (fuel : ℕ) :
    Gives data (HasRoot coin keccak data) (parseBlob word64 coin data.length fuel true) := by
  unfold parseBlob
  refine (gives_any _).bind ?_
  rintro ⟨t₁, ar₁⟩ -
  refine (gives_any _).bind fun ar₂ _ => ?_
  refine (gives_any _).bind ?_
  rintro ⟨t₃, ar₃⟩ -
  refine (gives_any _).bind fun ar₄ _ => ?_
  refine (gives_any _).bind ?_
  rintro ⟨t₅, ar₅⟩ -
  exact gives_parseTail hsize hcoin ar₅

theorem outcome_of_answer {m : Traced Stop Access BlockTemplate} (h : answer m = some (some t)) :
    m.outcome = .ok t := by
  unfold answer at h
  cases hm : m.outcome with
  | ok t' =>
      rw [hm] at h
      cases h
      rfl
  | error e =>
      rw [hm] at h
      cases e <;> cases h

theorem root_of_parse (hsize : data.length < 2 ^ 31) (hcoin : coin ≠ .TOWNFORGE) {fuel : ℕ}
    (h : answer (parse coin keccak data fuel true) = some (some t)) :
    t.merkle = calculateMerkleTreeHash keccak (blockLeaves coin keccak data t)
      (coinbaseTxIndex coin t) := by
  have hok := outcome_of_answer h
  unfold parse at hok
  split at hok
  · cases hok
  · obtain ⟨p, hp, ht⟩ := Traced.outcome_bind_ok hok
    cases ht
    exact gives_parseBlob hsize hcoin fuel p hp

/-- The Merkle computation: the loops give the tree hash, the stored branch and path give it with
another coinbase, and a template that is read with its hashes has the tree hash of its block. A
template comes as the text of a JSON string, whose length is kept in 32 bits, as is the path. -/
theorem merkle_computation (keccak : Buffer → Hash) :
    (∀ h : List Hash, h ≠ [] → ∀ index,
      (calculateMerkleTreeHash keccak h index).rootHash = treeHash (hashPair keccak) h) ∧
    (∀ (h : List Hash) (index : ℕ), ((cryptoNote h).values (hashPair keccak)).Nodup →
      index < h.length → h.length ≤ 2 ^ 32 →
      let stored := calculateMerkleTreeHash keccak h index
      (∀ x, rootLoop keccak stored.path stored.branch x =
        treeHash (hashPair keccak) (h.set index x)) ∧
      ∀ prefixBytes, calculateRootHash keccak prefixBytes stored.branch stored.path =
        treeHash (hashPair keccak) (h.set index (calculateMinerTxHash keccak prefixBytes))) ∧
    ∀ (coin : Coin) (data : Buffer) (fuel : ℕ) (t : BlockTemplate), coin ≠ .TOWNFORGE →
      data.length < 2 ^ 31 → answer (parse coin keccak data fuel true) = some (some t) →
      t.merkle.rootHash = treeHash (hashPair keccak) (blockLeaves coin keccak data t) := by
  refine ⟨fun h hne index => rootHash_calculateMerkleTreeHash keccak hne index, ?_, ?_⟩
  · intro h index hnodup hindex hlength stored
    have hroot := rootLoop_calculateMerkleTreeHash hnodup hindex hlength
    exact ⟨hroot, fun prefixBytes => hroot _⟩
  · intro coin data fuel t hcoin hsize hanswer
    have hne : blockLeaves coin keccak data t ≠ [] := by
      unfold blockLeaves
      dsimp only
      split
      · exact List.cons_ne_nil _ _
      · exact List.cons_ne_nil _ _
    rw [root_of_parse hsize hcoin hanswer]
    exact rootHash_calculateMerkleTreeHash keccak hne _

end Leaves

section Small

/-- A hash for small examples. -/
def sumHash (bytes : Buffer) : Hash :=
  ⟨UInt8.ofNat (bytes.foldl (fun sum b => sum + b.toNat) 1) :: List.replicate 31 0, rfl⟩

def smallHash (b : UInt8) : Hash := ⟨b :: List.replicate 31 0, rfl⟩

/-- A Monero template with one transaction besides the coinbase. -/
def smallTemplate : Buffer :=
  [16, 16, 0] ++ List.replicate 36 0 ++ [2, 60, 1, 0xFF, 0, 1, 0, 2] ++ List.replicate 32 0 ++
    [0, 0, 1] ++ List.replicate 32 7

theorem merkle_computation_small :
    (calculateMerkleTreeHash sumHash [smallHash 1, smallHash 2, smallHash 4] 0).rootHash =
      treeHash (hashPair sumHash) [smallHash 1, smallHash 2, smallHash 4] ∧
    (∀ x, rootLoop sumHash
        (calculateMerkleTreeHash sumHash [smallHash 1, smallHash 2, smallHash 4] 1).path
        (calculateMerkleTreeHash sumHash [smallHash 1, smallHash 2, smallHash 4] 1).branch x =
      treeHash (hashPair sumHash) [smallHash 1, x, smallHash 4]) ∧
    ∃ t, answer (parse .MONERO sumHash smallTemplate 0 true) = some (some t) ∧
      t.merkle.rootHash =
        treeHash (hashPair sumHash) (blockLeaves .MONERO sumHash smallTemplate t) := by
  obtain ⟨hroot, hbranch, hparse⟩ := merkle_computation sumHash
  have hanswer : answer (parse .MONERO sumHash smallTemplate 0 true) =
      some (some (((answer (parse .MONERO sumHash smallTemplate 0 true)).getD none).getD {})) := by
    decide +kernel
  refine ⟨hroot _ (List.cons_ne_nil _ _) 0, ?_, _, hanswer, ?_⟩
  · have hnodup : ((cryptoNote [smallHash 1, smallHash 2, smallHash 4]).values
        (hashPair sumHash)).Nodup := by decide +kernel
    exact (hbranch _ 1 hnodup (by decide) (by decide)).1
  · exact hparse .MONERO smallTemplate 0 _ (by decide) (by decide +kernel) hanswer

end Small

end BlockTemplate

end XmrigProxy
