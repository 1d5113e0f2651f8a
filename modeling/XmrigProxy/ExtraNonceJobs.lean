import XmrigProxy.IssuedWork

/-! The jobs of miners that share a template. A miner gets an extra nonce of its own: the proxy
writes it into the kept miner transaction and puts the new root into the kept hashing blob, while
the submission writes it into the template, which is parsed again. Both give the same blob where the
root stands at the position that a job takes for it. -/
namespace XmrigProxy.DaemonClient

open BlockTemplate
open DaemonTemplateSource (Snapshot)
open Hex (patch)
open Merkle

variable {c : Settings} {entropy : Buffer} {ids : List String} {now : ℕ}
  {contexts : List JobContext} {snapshot : Snapshot} {issued : Issued}

section Blobs

/-- The blob that a miner with an extra nonce gets. -/
def fastBlob (c : Settings) (issued : Issued) (extraNonce : ℕ) : Option String :=
  (Job.setExtraNonceInMinerTx extraNonce issued.minerTx).bind
    (Job.generateHashingBlob c.keccak issued.job)

/-- The blob of the template with the extra nonce that a submission writes. -/
def rebuiltBlob (c : Settings) (issued : Issued) (extraNonce : ℕ) : Option String :=
  (writeExtraNonce issued.context extraNonce issued.context.blocktemplate).bind fun blocktemplate =>
    (parseText c.coin c.keccak c.fuel blocktemplate).map fun p =>
      toHex (p.2.generateHashingBlob p.1)

/-- The root that the kept branch leads to from the coinbase with an extra nonce. -/
def extraNonceRoot (c : Settings) (issued : Issued) (extraNonce : ℕ) : Option Hash :=
  (Job.setExtraNonceInMinerTx extraNonce issued.minerTx).map fun tx =>
    calculateRootHash c.keccak tx.minerTxPrefix tx.merkleTreeBranch tx.merkleTreePath

def FastPathAgrees (c : Settings) (issued : Issued) : Prop :=
  ∀ extraNonce, ∃ blob, fastBlob c issued extraNonce = some blob ∧
    rebuiltBlob c issued extraNonce = some blob

/-- The hash tells the nodes of the tree apart, and some extra nonces. -/
structure TellsApart (c : Settings) (issued : Issued) (mutated : BlockTemplate) : Prop where
  nodes : ((cryptoNote mutated.hashes).values (hashPair c.keccak)).Nodup
  roots : ∃ m n, extraNonceRoot c issued m ≠ extraNonceRoot c issued n

/-- The root stands where a job writes it, and it is the root of the transactions. -/
def RootInPlace (c : Settings) (issued : Issued) (mutated : BlockTemplate) : Prop :=
  issued.job.rootHashOffset = mutated.minerTxPrefixOffset ∧
    ¬ (c.coin = .TOWNFORGE ∧ mutated.height % 720 = 0)

instance (mutated : BlockTemplate) : Decidable (RootInPlace c issued mutated) :=
  inferInstanceAs (Decidable (_ ∧ _))

end Blobs

section Layout

variable {blob data : Buffer} {original mutated : BlockTemplate} {n : ℕ}
  {r : BlockTemplate × Option (List Span)} {reads : ℕ → Prop}

/-- Everything that the two ways to a blob depend on. -/
structure Shared (c : Settings) (issued : Issued) (data : Buffer) (mutated : BlockTemplate)
    (r : BlockTemplate × Option (List Span)) (reads : ℕ → Prop) : Prop where
  size : data.length < 2 ^ 31
  laid : Laid c.coin data.length reads r
  mutated_eq : mutated = withRoot c.coin c.keccak data r
  nonce : r.1.txExtraNonce.size = kEntropySize
  minerTx : issued.minerTx = minerTxOf data mutated
  rawBlob : issued.job.rawBlob = toHex (mutated.generateHashingBlob data)
  kept : Hex.decode issued.context.blocktemplate.toList = some data
  offset : issued.context.extraNonceOffset = r.1.txExtraNonceOffset
  parse_patch : ∀ ys : Buffer, ys.length ≤ kEntropySize →
    (parse c.coin c.keccak (patch data r.1.txExtraNonceOffset ys) c.fuel true).outcome =
      .ok (withRoot c.coin c.keccak (patch data r.1.txExtraNonceOffset ys) r)

theorem Derived.shared (hd : Derived c entropy snapshot issued blob original data mutated)
    (hsafe : ParsesSafely c.coin c.keccak blob true) (hsize : blob.length < 2 ^ 31) :
    ∃ r reads, Shared c issued data mutated r reads := by
  obtain ⟨r, horiginal, hmutated, hlength, hmin, hrun, hlaid⟩ := hd.laid hsafe (by omega)
  obtain ⟨hashes, merkle, hfields⟩ := withRoot_fields c.coin c.keccak blob r
  have hnonce : r.1.txExtraNonce.size = kEntropySize := by
    have hreserved := hd.reserved
    rwa [horiginal, hfields] at hreserved
  have hoffset : issued.context.extraNonceOffset = r.1.txExtraNonceOffset := by
    rw [hd.extraNonceOffset, horiginal, hfields]
  have hat := hlaid.extraNonce (by rw [hnonce]; decide)
  have hstop := hat.stop.trans hlaid.end_le
  rw [hnonce] at hstop
  refine ⟨r, _, by omega, hlaid, hmutated, hnonce, hd.minerTx, hd.rawBlob, hd.kept, hoffset, ?_⟩
  intro ys hys
  refine parse_patch (by omega) hmin hrun fun p hp => ?_
  have hout := hat.unread p hp
  omega

/-- The position depends on the algorithm and on whether blocks are signed. -/
theorem Derived.rootHashOffset_eq
    (hd : Derived c entropy snapshot issued blob original data mutated) :
    issued.job.rootHashOffset = (newJob c mutated).nonceOffset + (newJob c mutated).nonceSize +
      if mutated.hasMinerSignature then kSignatureSize + 2 else 0 := by
  unfold Job.rootHashOffset Job.nonceOffset Job.nonceSize
  rw [hd.algorithm, hd.signed_job]

variable (hs : Shared c issued data mutated r reads)
include hs

theorem Shared.nonceAt :
    NonceAt r.1.minerTxPrefixOffset r.1.minerTxPrefixEndOffset reads r.1 :=
  hs.laid.extraNonce (by rw [hs.nonce]; decide)

/-- What the kept miner transaction is, in terms of the parse. -/
theorem Shared.minerTx_eq :
    issued.minerTx.minerTxPrefix = slice data r.1.minerTxPrefixOffset
      (r.1.minerTxPrefixEndOffset - r.1.minerTxPrefixOffset) ∧
    issued.minerTx.extraNonceOffset = r.1.txExtraNonceOffset - r.1.minerTxPrefixOffset ∧
    issued.minerTx.extraNonceSize = kEntropySize ∧
    issued.minerTx.merkleTreeBranch = mutated.merkle.branch ∧
    issued.minerTx.merkleTreePath = mutated.merkle.path := by
  obtain ⟨hashes, merkle, hfields⟩ := withRoot_fields c.coin c.keccak data r
  have hstart := hs.nonceAt.start
  have hstop := hs.nonceAt.stop.trans hs.laid.end_le
  have hsize := hs.size
  have hmutated := hs.mutated_eq.trans hfields
  rw [hs.minerTx]
  refine ⟨?_, ?_, ?_, rfl, rfl⟩
  · unfold minerTxOf
    rw [hmutated]
  · have hwrap : (r.1.txExtraNonceOffset + 2 ^ 64 - r.1.minerTxPrefixOffset) % 2 ^ 64 =
        r.1.txExtraNonceOffset - r.1.minerTxPrefixOffset := by omega
    unfold minerTxOf
    rw [hmutated]
    exact hwrap
  · unfold minerTxOf
    rw [hmutated]
    exact hs.nonce

/-- The miner transaction with an extra nonce. -/
theorem Shared.extraNonceRoot_eq (n : ℕ) : extraNonceRoot c issued n =
    some (calculateRootHash c.keccak
      (patch (slice data r.1.minerTxPrefixOffset
          (r.1.minerTxPrefixEndOffset - r.1.minerTxPrefixOffset))
        (r.1.txExtraNonceOffset - r.1.minerTxPrefixOffset) (littleEndianBytes 4 n))
      mutated.merkle.branch mutated.merkle.path) := by
  obtain ⟨hpart, hoffset, hsize, hbranch, hpath⟩ := hs.minerTx_eq
  have hstart := hs.nonceAt.start
  have hstop := hs.nonceAt.stop
  have hend := hs.laid.end_le
  have hbytes : (littleEndianBytes 4 n).take issued.minerTx.extraNonceSize =
      littleEndianBytes 4 n := by
    apply List.take_of_length_le
    rw [length_littleEndianBytes, hsize]
    decide
  have hsixteen : r.1.txExtraNonce.size = 16 := hs.nonce
  have hfit : issued.minerTx.extraNonceOffset + (littleEndianBytes 4 n).length ≤
      issued.minerTx.minerTxPrefix.length := by
    rw [hoffset, hpart, length_littleEndianBytes]
    unfold slice
    rw [List.length_take, List.length_drop]
    omega
  unfold extraNonceRoot Job.setExtraNonceInMinerTx
  dsimp only
  rw [hbytes, if_pos hfit, Option.map_some, hpart, hoffset, hbranch, hpath]

/-- The fast path writes the root into the digits of the blob that was issued. -/
theorem Shared.decode_fastBlob {n : ℕ} {text : String} {root : Hash}
    (hroot : extraNonceRoot c issued n = some root) (htext : fastBlob c issued n = some text) :
    issued.job.rootHashOffset + root.bytes.length ≤ (mutated.generateHashingBlob data).length ∧
      text = toHex (patch (mutated.generateHashingBlob data) issued.job.rootHashOffset
        root.bytes) := by
  obtain ⟨tx, htx, hwrite⟩ := Option.bind_eq_some_iff.mp htext
  obtain ⟨tx', htx', rfl⟩ := Option.map_eq_some_iff.mp hroot
  obtain rfl := Option.some.inj (htx'.symm.trans htx)
  have hraw : Hex.decode issued.job.rawBlob.toList = some (mutated.generateHashingBlob data) := by
    rw [hs.rawBlob, decode_toHex]
  obtain ⟨-, hfit⟩ := decode_writeText hraw (Hex.decode_encode _) hwrite
  obtain ⟨-, rfl⟩ := writeText_eq_some.mp hwrite
  refine ⟨hfit, ?_⟩
  rw [hs.rawBlob]
  unfold toHex
  rw [String.toList_ofList, Nat.mul_comm, Hex.encode_patch]

theorem Shared.exists_fastBlob {n : ℕ} {root : Hash} (hroot : extraNonceRoot c issued n = some root)
    (hfit : issued.job.rootHashOffset + root.bytes.length ≤
      (mutated.generateHashingBlob data).length) : ∃ text, fastBlob c issued n = some text := by
  obtain ⟨tx, htx, rfl⟩ := Option.map_eq_some_iff.mp hroot
  have hraw : Hex.decode issued.job.rawBlob.toList = some (mutated.generateHashingBlob data) := by
    rw [hs.rawBlob, decode_toHex]
  obtain ⟨text, htext⟩ := exists_writeText hraw (Hex.decode_encode _) hfit
  exact ⟨text, Option.bind_eq_some_iff.mpr ⟨tx, htx, htext⟩⟩

/-- The template with an extra nonce differs from the kept one in the root alone, as far as the
blob is concerned. -/
theorem Shared.rebuiltBlob_eq (n : ℕ) : rebuiltBlob c issued n =
    some (toHex (patch (mutated.generateHashingBlob data) r.1.minerTxPrefixOffset
      (withRoot c.coin c.keccak (patch data r.1.txExtraNonceOffset (littleEndianBytes 4 n))
        r).merkle.rootHash.bytes)) := by
  have hsixteen : r.1.txExtraNonce.size = 16 := hs.nonce
  have hstart := hs.nonceAt.start
  have hstop := hs.nonceAt.stop.trans hs.laid.end_le
  have hlength : (littleEndianBytes 4 n).length = 4 := length_littleEndianBytes 4 n
  have hfit : r.1.txExtraNonceOffset + (littleEndianBytes 4 n).length ≤ data.length := by omega
  obtain ⟨blocktemplate, hwrite⟩ := exists_writeText hs.kept
    (Hex.decode_encode (littleEndianBytes 4 n)) hfit
  obtain ⟨hdecode, -⟩ := decode_writeText hs.kept (Hex.decode_encode _) hwrite
  have hextra : writeExtraNonce issued.context n issued.context.blocktemplate =
      some blocktemplate := by
    unfold writeExtraNonce
    rw [if_pos (Int.natCast_nonneg n), hs.offset]
    exact hwrite
  have hparse := parseText_eq_some.mpr
    ⟨hdecode, hs.parse_patch (littleEndianBytes 4 n) (by rw [hlength]; decide)⟩
  unfold rebuiltBlob
  rw [hextra, Option.bind_some, hparse, Option.map_some]
  rw [generateHashingBlob_patch hfit hstart, ← hs.mutated_eq]

/-- With distinct nodes the kept branch leads to the root of the template with the extra nonce. -/
theorem Shared.rootHash_eq (hnodup : ((cryptoNote mutated.hashes).values (hashPair c.keccak)).Nodup)
    (hlate : r.2 ≠ none) (n : ℕ) : extraNonceRoot c issued n =
      some (withRoot c.coin c.keccak (patch data r.1.txExtraNonceOffset (littleEndianBytes 4 n))
        r).merkle.rootHash := by
  have hat := hs.nonceAt
  have hlaid := hs.laid
  have hmutated := hs.mutated_eq
  have hsixteen : r.1.txExtraNonce.size = 16 := hs.nonce
  have hlength : (littleEndianBytes 4 n).length = 4 := length_littleEndianBytes 4 n
  have hstart := hat.start
  have hstop := hat.stop
  have hsize := hs.size
  have hend := hlaid.end_le
  rw [hs.extraNonceRoot_eq n]
  obtain ⟨t, spans⟩ := r
  cases spans with
  | none => exact absurd rfl hlate
  | some spans =>
      dsimp only at hsixteen hstart hstop hend hat
      have hhashes : mutated.hashes = leaves c.coin c.keccak data t spans := by
        rw [hmutated]
        rfl
      have hcount : (leaves c.coin c.keccak data t spans).length ≤ 2 ^ 32 := by
        have hspans := (hlaid.spans spans rfl).2.2
        have hleaves := length_leaves_le c.coin c.keccak data t spans
        omega
      rw [hhashes] at hnodup
      rw [rootHash_patch_inside hlaid (by omega) hstart (by omega) hnodup hcount, hmutated]

theorem Shared.fields_eq : mutated.minerTxPrefixOffset = r.1.minerTxPrefixOffset ∧
    mutated.height = r.1.height := by
  obtain ⟨hashes, merkle, hfields⟩ := withRoot_fields c.coin c.keccak data r
  rw [hs.mutated_eq, hfields]
  exact ⟨rfl, rfl⟩

theorem Shared.room : r.1.minerTxPrefixOffset + 32 ≤ (mutated.generateHashingBlob data).length := by
  have hpart := hs.laid.prefix_le.trans hs.laid.end_le
  unfold generateHashingBlob
  rw [hs.fields_eq.1, List.length_append, List.length_append, List.length_take,
    mutated.merkle.rootHash.size]
  omega

theorem Shared.agrees (hnodup : ((cryptoNote mutated.hashes).values (hashPair c.keccak)).Nodup)
    (hplace : RootInPlace c issued mutated) : FastPathAgrees c issued := by
  obtain ⟨hpart, hheight⟩ := hs.fields_eq
  have hoffset : issued.job.rootHashOffset = r.1.minerTxPrefixOffset := hplace.1.trans hpart
  have hlate : r.2 ≠ none := by
    intro hearly
    apply hplace.2
    rw [hheight]
    exact hs.laid.early.mp hearly
  intro n
  have hroot := hs.rootHash_eq hnodup hlate n
  obtain ⟨text, htext⟩ := hs.exists_fastBlob hroot (by rw [hoffset, Hash.size]; exact hs.room)
  obtain ⟨-, heq⟩ := hs.decode_fastBlob hroot htext
  refine ⟨text, htext, ?_⟩
  rw [hs.rebuiltBlob_eq n, heq, hoffset]

/-- At any other position only one root can be in both blobs. -/
theorem Shared.place_of_agrees (happart : TellsApart c issued mutated)
    (h : FastPathAgrees c issued) : RootInPlace c issued mutated := by
  obtain ⟨hpart, hheight⟩ := hs.fields_eq
  have hwritten : ∀ n root, extraNonceRoot c issued n = some root →
      issued.job.rootHashOffset + 32 ≤ (mutated.generateHashingBlob data).length ∧
      patch (mutated.generateHashingBlob data) issued.job.rootHashOffset root.bytes =
        patch (mutated.generateHashingBlob data) r.1.minerTxPrefixOffset
          (withRoot c.coin c.keccak (patch data r.1.txExtraNonceOffset (littleEndianBytes 4 n))
            r).merkle.rootHash.bytes := by
    intro n root hroot
    obtain ⟨text, hfast, hrebuilt⟩ := h n
    obtain ⟨hfit, heq⟩ := hs.decode_fastBlob hroot hfast
    rw [root.size] at hfit
    refine ⟨hfit, ?_⟩
    rw [hs.rebuiltBlob_eq n] at hrebuilt
    exact toHex_injective (heq.symm.trans (Option.some.inj hrebuilt).symm)
  obtain ⟨m, n, hdiffer⟩ := happart.roots
  obtain ⟨root, hroot⟩ : ∃ root, extraNonceRoot c issued m = some root :=
    ⟨_, hs.extraNonceRoot_eq m⟩
  obtain ⟨root', hroot'⟩ : ∃ root, extraNonceRoot c issued n = some root :=
    ⟨_, hs.extraNonceRoot_eq n⟩
  have hne : root.bytes ≠ root'.bytes := by
    intro hbytes
    apply hdiffer
    rw [hroot, hroot', Hash.bytes_injective hbytes]
  obtain ⟨hfit, hpatch⟩ := hwritten m root hroot
  obtain ⟨-, hpatch'⟩ := hwritten n root' hroot'
  have hsize : root.bytes.length = root'.bytes.length := root.size.trans root'.size.symm
  have hlate : r.2 ≠ none := by
    intro hearly
    -- the root of such a block is never computed, and stays the same
    have hconstant : ∀ ys : Buffer, withRoot c.coin c.keccak ys r = r.1 := by
      intro ys
      obtain ⟨t, spans⟩ := r
      obtain rfl : spans = none := hearly
      rfl
    rw [hconstant] at hpatch hpatch'
    exact hne (Hex.patch_injective hsize (by rw [root.size]; exact hfit)
      (hpatch.trans hpatch'.symm))
  constructor
  · by_contra hplace
    rw [hpart] at hplace
    rw [Option.some.inj ((hs.rootHash_eq happart.nodes hlate m).symm.trans hroot)] at hpatch
    rw [Option.some.inj ((hs.rootHash_eq happart.nodes hlate n).symm.trans hroot')] at hpatch'
    exact hne (Hex.eq_of_patch_eq_patch hsize (by rw [root.size]; exact hfit)
      (by rw [root.size]; exact hs.room) hplace hpatch hpatch')
  · intro hearly
    rw [hheight] at hearly
    exact hlate (hs.laid.early.mpr hearly)

end Layout

section Claim

variable {blob data : Buffer} {mutated : BlockTemplate}

/-- Both ways give the same blob for every extra nonce exactly where the root of the template stands
at the position that the job takes for it, and it is computed at all. -/
theorem extra_nonce_blob_is_rebuilt
    (hissued : installTemplate c entropy ids now contexts snapshot = some issued)
    (hlength : snapshot.blocktemplateBlob.toList.length < 2 ^ 32)
    (hblob : Hex.decode snapshot.blocktemplateBlob.toList = some blob)
    (hsafe : ParsesSafely c.coin c.keccak blob true)
    (hkept : parseText c.coin c.keccak c.fuel issued.context.blocktemplate = some (data, mutated))
    (happart : TellsApart c issued mutated) :
    FastPathAgrees c issued ↔ RootInPlace c issued mutated := by
  obtain ⟨blob', original, data', mutated', hd⟩ := derived_of_installTemplate hissued
  obtain rfl := Option.some.inj (hd.template.symm.trans hblob)
  obtain ⟨hdata, hmutated⟩ := parseText_eq_some.mp hkept
  obtain rfl := Option.some.inj (hd.kept.symm.trans hdata)
  obtain rfl := Except.ok.inj (hd.derived.symm.trans hmutated)
  have hsize := Hex.decode_length hblob
  obtain ⟨r, reads, hs⟩ := hd.shared hsafe (by omega)
  exact ⟨hs.place_of_agrees happart, hs.agrees happart.nodes⟩

/-- A template with a record of prices before its miner transaction, which has two outputs. -/
def pricedTemplate : Buffer :=
  [16, 16] ++ usualTimestamp ++ List.replicate 32 3 ++ List.replicate 124 0 ++
    [2, 60, 1, 0xFF, 9, 2, 0, 2] ++ List.replicate 32 0 ++ [3, 90, 80, 72, 0, 0, 2] ++
      List.replicate 32 0 ++
    [3, 90, 80, 72, 0, 18, 2, 16] ++ List.replicate 16 0 ++ [0, 0, 0, 0, 0]

def pricedSettings : Settings where
  coin := .ZEPHYR
  keccak := sumHash
  fuel := 4

def pricedFields (data : Buffer) : BlockTemplate :=
  ((parse .ZEPHYR sumHash data 4 true).outcome.toOption).getD {}

def pricedSnapshot : Snapshot :=
  { workSnapshot usualTimestamp with
    blocktemplateBlob := toHex pricedTemplate
    blockhashingBlob := toHex ((pricedFields pricedTemplate).generateHashingBlob pricedTemplate)
    reservedOffset := 250 }

/-- What the parses of the template and of the one with the reserved bytes give. -/
structure PricedFields (original mutated : BlockTemplate) : Prop where
  parsed : (parse .ZEPHYR sumHash pricedTemplate 4 true).outcome = .ok original
  reserved : original.txExtraNonce.size = kEntropySize ∧ original.txExtraNonceOffset = 250
  derived : (parse .ZEPHYR sumHash (patch pricedTemplate 250 workEntropy) 4 true).outcome =
    .ok mutated
  kept : mutated.txExtraNonce.size = kEntropySize ∧ mutated.txExtraNonceOffset = 250
  unsigned : mutated.hasMinerSignature = false
  prefixOffset : mutated.minerTxPrefixOffset = 163
  max : (mutated.generateHashingBlob (patch pricedTemplate 250 workEntropy)).length = 196
  nodes : ((cryptoNote mutated.hashes).values (hashPair sumHash)).Nodup
  roots : (Job.setExtraNonceInMinerTx 0
      (minerTxOf (patch pricedTemplate 250 workEntropy) mutated)).map
      (fun tx => calculateRootHash sumHash tx.minerTxPrefix tx.merkleTreeBranch tx.merkleTreePath) ≠
    (Job.setExtraNonceInMinerTx 1
      (minerTxOf (patch pricedTemplate 250 workEntropy) mutated)).map
      (fun tx => calculateRootHash sumHash tx.minerTxPrefix tx.merkleTreeBranch tx.merkleTreePath)

theorem pricedFields_spec : PricedFields (pricedFields pricedTemplate)
    (pricedFields (patch pricedTemplate 250 workEntropy)) := by
  constructor <;> decide +kernel

theorem pricedJob_offsets (t : BlockTemplate) : (newJob pricedSettings t).nonceOffset = 39 ∧
    (newJob pricedSettings t).nonceSize = 4 := by
  have halgorithm : (newJob pricedSettings t).algorithm = Algorithm.RX_0 := rfl
  unfold Job.nonceOffset Job.nonceSize
  rw [halgorithm]
  decide

/-- The root of such a block is written into the record of prices. -/
theorem priced_root_is_misplaced : ¬ ∀ c entropy ids now contexts snapshot issued data mutated,
    installTemplate c entropy ids now contexts snapshot = some issued →
    parseText c.coin c.keccak c.fuel issued.context.blocktemplate = some (data, mutated) →
    TellsApart c issued mutated → FastPathAgrees c issued := by
  intro h
  have hspec := pricedFields_spec
  generalize pricedFields pricedTemplate = original at hspec
  generalize pricedFields (patch pricedTemplate 250 workEntropy) = mutated at hspec
  obtain ⟨hnonceOffset, hnonceSize⟩ := pricedJob_offsets mutated
  obtain ⟨hsixteen, hat⟩ := hspec.reserved
  obtain ⟨issued, hissued⟩ : ∃ issued, installTemplate pricedSettings workEntropy ["a"] 0 []
      pricedSnapshot = some issued := by
    refine exists_issued (by decide) rfl rfl hspec.parsed ⟨hsixteen, hat.symm, ?_⟩ rfl
      (hat ▸ hspec.derived) (hat ▸ hspec.kept) hspec.unsigned ?_ ?_ ⟨rfl, rfl⟩ rfl
    · rw [hat]
      decide +kernel
    · rw [hnonceOffset, hnonceSize, hat, hspec.max]
      decide
    · rw [hat, hspec.max]
      decide
  obtain ⟨blob, original', data, mutated', hd⟩ := derived_of_installTemplate hissued
  obtain rfl : pricedTemplate = blob := Option.some.inj ((decode_toHex _).symm.trans hd.template)
  obtain rfl := Except.ok.inj (hd.parsed.symm.trans hspec.parsed)
  obtain rfl : data = patch pricedTemplate 250 workEntropy := by rw [hd.data_eq, hat]
  obtain rfl := Except.ok.inj (hd.derived.symm.trans hspec.derived)
  have happart : TellsApart pricedSettings issued mutated' := by
    refine ⟨hspec.nodes, 0, 1, ?_⟩
    unfold extraNonceRoot
    rw [hd.minerTx]
    exact hspec.roots
  have hsafe : ParsesSafely .ZEPHYR sumHash pricedTemplate true :=
    (parsesSafely_iff _ _ _ _).mpr (by decide +kernel)
  obtain ⟨r, reads, hs⟩ := hd.shared hsafe (by decide +kernel)
  have hplace := (hs.place_of_agrees happart (h _ _ _ _ _ _ _ _ _ hissued
    (parseText_eq_some.mpr ⟨hd.kept, hd.derived⟩) happart)).1
  have hjob : issued.job.rootHashOffset = 43 := by
    rw [hd.rootHashOffset_eq, hnonceOffset, hnonceSize, hspec.unsigned]
    rfl
  rw [hjob, hspec.prefixOffset] at hplace
  exact absurd hplace (by decide)

/-- Without such a record the root follows the nonce. -/
theorem extra_nonce_blob_is_rebuilt_usual : ∃ issued,
    installTemplate workSettings workEntropy ["a"] 0 [] (workSnapshot usualTimestamp) =
      some issued ∧ FastPathAgrees workSettings issued := by
  obtain ⟨issued, hissued⟩ := exists_work suits_usual
  obtain ⟨hdecode, hunsigned, hjob, data, hd⟩ := work_derived suits_usual hissued
  have hlength : (workSnapshot usualTimestamp).blocktemplateBlob.toList.length < 2 ^ 32 := by
    rw [Hex.decode_length hdecode]
    decide
  have hsafe : ParsesSafely .SUMO sumHash (workTemplate usualTimestamp) true :=
    (parsesSafely_iff _ _ _ _).mpr (by decide +kernel)
  have hoffset : (parsedFields (workTemplate usualTimestamp)).txExtraNonceOffset = 86 := by
    decide +kernel
  obtain rfl : data = patch (workTemplate usualTimestamp) 86 workEntropy := by
    rw [hd.data_eq, hoffset]
  have hplace : RootInPlace workSettings issued
      (parsedFields (patch (workTemplate usualTimestamp) 86 workEntropy)) := by
    obtain ⟨hnonceOffset, hnonceSize⟩ := workJob_offsets
      (parsedFields (patch (workTemplate usualTimestamp) 86 workEntropy))
    unfold RootInPlace
    rw [hd.rootHashOffset_eq, hnonceOffset, hnonceSize]
    decide +kernel
  have happart : TellsApart workSettings issued
      (parsedFields (patch (workTemplate usualTimestamp) 86 workEntropy)) := by
    refine ⟨by decide +kernel, 0, 1, ?_⟩
    unfold extraNonceRoot
    rw [hd.minerTx]
    decide +kernel
  exact ⟨issued, hissued, (extra_nonce_blob_is_rebuilt hissued hlength hdecode hsafe
    (parseText_eq_some.mpr ⟨hd.kept, hd.derived⟩) happart).mpr hplace⟩

end Claim

end XmrigProxy.DaemonClient
