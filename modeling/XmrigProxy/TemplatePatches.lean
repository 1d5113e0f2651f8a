import XmrigProxy.Library.Hex
import XmrigProxy.TemplateLayout
import XmrigProxy.TemplateLeaves

/-! What a template with some bytes written over is parsed as. Bytes that the parse does not read
leave everything as it was; those of the miner transaction change the coinbase and with it the root,
to the one that the branch of the old coinbase leads to. -/
namespace XmrigProxy

namespace BlockTemplate

open Hex (patch)
open Merkle

variable {coin : Coin} {keccak : Buffer → Hash} {data ys : Buffer} {fuel i : ℕ}
  {r : BlockTemplate × Option (List Span)}

section Parse

theorem run_patch {α : Type} {m : Read α} (hfit : i + ys.length ≤ data.length)
    (hunread : ∀ p, reads data m p → p < i ∨ i + ys.length ≤ p) :
    m.run (source (patch data i ys)) = m.run (source data) := by
  have hnote : (source (patch data i ys)).note = (source data).note := rfl
  refine Ask.run_congr hnote fun p hp => ?_
  unfold source
  dsimp only
  rw [Hex.getElem?_patch_of_outside hfit (hunread p hp)]

/-- The fields of a template do not depend on bytes that are not read. -/
theorem parse_patch (hfit : i + ys.length ≤ data.length) (hmin : ¬ data.length < kMinSize)
    (h : ((parseBlob word64 coin data.length fuel true).run (source data)).outcome = .ok r)
    (hunread : ∀ p, reads data (parseBlob word64 coin data.length fuel true) p →
      p < i ∨ i + ys.length ≤ p) :
    (parse coin keccak (patch data i ys) fuel true).outcome =
      .ok (withRoot coin keccak (patch data i ys) r) := by
  have hlength := Hex.length_patch hfit
  rw [parse_eq (by rwa [hlength]), hlength, run_patch hfit hunread, Traced.bind_ok h]
  rfl

end Parse

section Root

theorem slice_of_outside (hfit : i + ys.length ≤ data.length) {start n : ℕ}
    (h : start + n ≤ i ∨ i + ys.length ≤ start) :
    slice (patch data i ys) start n = slice data start n :=
  Hex.slice_patch_of_outside hfit h

theorem hashAt_of_behind (hfit : i + ys.length ≤ data.length) {start : ℕ}
    (h : i + ys.length ≤ start) : hashAt (patch data i ys) start = hashAt data start := by
  unfold hashAt
  dsimp only
  congr 1
  rw [slice_of_outside hfit (Or.inr h)]

theorem inputLength_of_le {start stop : ℕ} (hle : start ≤ stop) (hstop : stop < 2 ^ 31) :
    inputLength start stop = stop - start := by
  unfold inputLength
  dsimp only
  have hmod : ((stop : ℤ) - start).bmod (2 ^ 32) = (stop : ℤ) - start := by
    refine Int.bmod_eq_of_le ?_ ?_
    · omega
    · omega
  rw [hmod, if_pos (by omega)]
  omega

variable {t : BlockTemplate} {spans : List Span}

/-- The leaves besides the coinbase stand behind the miner transaction. -/
structure Behind (coin : Coin) (t : BlockTemplate) (spans : List Span) : Prop where
  hashes : ∀ s ∈ spans, t.minerTxPrefixEndOffset < s.start
  tree : isFcmp coin t → t.minerTxPrefixEndOffset < t.fcmpTreeRoot.start

/-- Only the coinbase depends on what stands before the end of the prefix. -/
theorem leaves_patch (hfit : i + ys.length ≤ data.length) (hbehind : Behind coin t spans)
    (hend : i + ys.length ≤ t.minerTxPrefixEndOffset) :
    leaves coin keccak (patch data i ys) t spans =
      (leaves coin keccak data t spans).set (coinbaseTxIndex coin t)
        (calculateMinerTxHash keccak (slice (patch data i ys) t.minerTxPrefixOffset
          (inputLength t.minerTxPrefixOffset t.minerTxPrefixEndOffset))) := by
  have hothers : (spans.map fun h => hashAt (patch data i ys) h.start) =
      spans.map fun h => hashAt data h.start :=
    List.map_congr_left fun s hs => hashAt_of_behind hfit (hend.trans (hbehind.hashes s hs).le)
  unfold leaves coinbaseTxIndex
  dsimp only
  rw [hothers]
  by_cases hfcmp : isFcmp coin t = true
  · rw [if_pos hfcmp, if_pos hfcmp, if_pos hfcmp,
      hashAt_of_behind hfit (hend.trans (hbehind.tree hfcmp).le)]
    rfl
  · rw [if_neg hfcmp, if_neg hfcmp, if_neg hfcmp]
    rfl

theorem set_coinbase (coin : Coin) (keccak : Buffer → Hash) (data : Buffer) (t : BlockTemplate)
    (spans : List Span) :
    (leaves coin keccak data t spans).set (coinbaseTxIndex coin t)
        (calculateMinerTxHash keccak (slice data t.minerTxPrefixOffset
          (inputLength t.minerTxPrefixOffset t.minerTxPrefixEndOffset))) =
      leaves coin keccak data t spans := by
  unfold leaves coinbaseTxIndex
  dsimp only
  by_cases hfcmp : isFcmp coin t = true
  · rw [if_pos hfcmp, if_pos hfcmp]
    rfl
  · rw [if_neg hfcmp, if_neg hfcmp]
    rfl

theorem coinbaseTxIndex_lt (coin : Coin) (keccak : Buffer → Hash)
    (data : Buffer) (t : BlockTemplate) (spans : List Span) :
    coinbaseTxIndex coin t < (leaves coin keccak data t spans).length := by
  unfold leaves coinbaseTxIndex
  dsimp only
  by_cases hfcmp : isFcmp coin t = true
  · rw [if_pos hfcmp, if_pos hfcmp]
    simp
  · rw [if_neg hfcmp, if_neg hfcmp]
    simp

theorem length_leaves_le (coin : Coin) (keccak : Buffer → Hash) (data : Buffer) (t : BlockTemplate)
    (spans : List Span) : (leaves coin keccak data t spans).length ≤ spans.length + 3 := by
  unfold leaves
  dsimp only
  by_cases hfcmp : isFcmp coin t = true
  · rw [if_pos hfcmp]
    simp
  · rw [if_neg hfcmp]
    simp

/-- The root changes nothing else of a template. -/
theorem withRoot_fields (coin : Coin) (keccak : Buffer → Hash) (data : Buffer)
    (r : BlockTemplate × Option (List Span)) :
    ∃ hashes merkle, withRoot coin keccak data r = { r.1 with
      hashes
      merkle } := by
  obtain ⟨t, spans⟩ := r
  cases spans with
  | none => exact ⟨t.hashes, t.merkle, rfl⟩
  | some spans => exact ⟨_, _, rfl⟩

/-- A hashing blob depends on what is written into the miner transaction through the root. -/
theorem generateHashingBlob_patch (hfit : i + ys.length ≤ data.length)
    (hstart : r.1.minerTxPrefixOffset ≤ i) :
    (withRoot coin keccak (patch data i ys) r).generateHashingBlob (patch data i ys) =
      patch ((withRoot coin keccak data r).generateHashingBlob data) r.1.minerTxPrefixOffset
        (withRoot coin keccak (patch data i ys) r).merkle.rootHash.bytes := by
  obtain ⟨hashes, merkle, hfields⟩ := withRoot_fields coin keccak data r
  obtain ⟨hashes', merkle', hfields'⟩ := withRoot_fields coin keccak (patch data i ys) r
  have htake : (data.take r.1.minerTxPrefixOffset).length = r.1.minerTxPrefixOffset := by
    rw [List.length_take]
    omega
  unfold generateHashingBlob
  rw [hfields, hfields']
  dsimp only
  rw [Hex.take_patch hfit hstart]
  nth_rewrite 3 [← htake]
  rw [Hex.patch_append]
  rw [merkle.rootHash.size, merkle'.rootHash.size]

/-- What stands before the miner transaction is not hashed into the root. -/
theorem withRoot_patch_before {reads : ℕ → Prop} (hlaid : Laid coin data.length reads r)
    (hbefore : i + ys.length ≤ r.1.minerTxPrefixOffset) :
    withRoot coin keccak (patch data i ys) r = withRoot coin keccak data r := by
  obtain ⟨t, spans⟩ := r
  have hprefix := hlaid.prefix_le
  have hend := hlaid.end_le
  dsimp only at hbefore hprefix hend
  have hfit : i + ys.length ≤ data.length := by omega
  cases spans with
  | none => rfl
  | some spans =>
      have hbehind : Behind coin t spans := ⟨(hlaid.spans spans rfl).1, (hlaid.spans spans rfl).2.1⟩
      have hleaves : leaves coin keccak (patch data i ys) t spans = _ :=
        leaves_patch hfit hbehind (hbefore.trans hprefix)
      rw [slice_of_outside hfit (Or.inr hbefore), set_coinbase] at hleaves
      unfold withRoot
      dsimp only
      rw [hleaves]

/-- With other bytes in the miner transaction the root is the one to which the branch of the old
coinbase leads from the new one. -/
theorem rootHash_patch_inside {reads : ℕ → Prop} {t : BlockTemplate} {spans : List Span}
    (hlaid : Laid coin data.length reads (t, some spans)) (hend : t.minerTxPrefixEndOffset < 2 ^ 31)
    (hstart : t.minerTxPrefixOffset ≤ i) (hstop : i + ys.length ≤ t.minerTxPrefixEndOffset)
    (hnodup : ((cryptoNote (leaves coin keccak data t spans)).values (hashPair keccak)).Nodup)
    (hcount : (leaves coin keccak data t spans).length ≤ 2 ^ 32) :
    (withRoot coin keccak (patch data i ys) (t, some spans)).merkle.rootHash =
      calculateRootHash keccak
        (patch (slice data t.minerTxPrefixOffset (t.minerTxPrefixEndOffset - t.minerTxPrefixOffset))
          (i - t.minerTxPrefixOffset) ys)
        (withRoot coin keccak data (t, some spans)).merkle.branch
        (withRoot coin keccak data (t, some spans)).merkle.path := by
  have hbehind : Behind coin t spans := ⟨(hlaid.spans spans rfl).1, (hlaid.spans spans rfl).2.1⟩
  have hfit : i + ys.length ≤ data.length := hstop.trans hlaid.end_le
  have hleaves : leaves coin keccak (patch data i ys) t spans = _ := leaves_patch hfit hbehind hstop
  have hprefix : t.minerTxPrefixOffset ≤ t.minerTxPrefixEndOffset := hlaid.prefix_le
  have hslice : slice (patch data i ys) t.minerTxPrefixOffset
      (inputLength t.minerTxPrefixOffset t.minerTxPrefixEndOffset) =
      patch (slice data t.minerTxPrefixOffset (t.minerTxPrefixEndOffset - t.minerTxPrefixOffset))
        (i - t.minerTxPrefixOffset) ys := by
    rw [inputLength_of_le hprefix hend]
    exact Hex.slice_patch hfit hstart (by omega)
  rw [hslice] at hleaves
  have hindex := coinbaseTxIndex_lt coin keccak data t spans
  have hne : leaves coin keccak (patch data i ys) t spans ≠ [] := by
    rw [hleaves]
    intro hnil
    have hlength := congrArg List.length hnil
    rw [List.length_set, List.length_nil] at hlength
    omega
  have hroot : (withRoot coin keccak (patch data i ys) (t, some spans)).merkle.rootHash =
      treeHash (hashPair keccak) (leaves coin keccak (patch data i ys) t spans) :=
    rootHash_calculateMerkleTreeHash keccak hne _
  rw [hroot, hleaves]
  exact (rootLoop_calculateMerkleTreeHash hnodup hindex hcount _).symm

end Root

end BlockTemplate

end XmrigProxy
