import XmrigProxy.DaemonJobs
import XmrigProxy.TemplatePatches

/-! Whether a submitted block is the work that was issued. The nonce is written where the job says,
which is a fixed position for each algorithm, and it belongs where the parse of the template found
it. The rest of the block is read as before, as long as the parse of the template is safe. -/
namespace XmrigProxy.DaemonClient

open BlockTemplate
open DaemonTemplateSource (Snapshot)
open Hex (patch)

variable {c : Settings} {entropy : Buffer} {ids : List String} {now : ℕ}
  {contexts : List JobContext} {snapshot : Snapshot} {issued : Issued}

section Derivation

variable {blob data : Buffer} {original mutated : BlockTemplate}

/-- The template of a job has the layout of the template that it was derived from. -/
theorem Derived.laid (hd : Derived c entropy snapshot issued blob original data mutated)
    (hsafe : ParsesSafely c.coin c.keccak blob true) (hsize : blob.length < 2 ^ 32) :
    ∃ r, original = withRoot c.coin c.keccak blob r ∧ mutated = withRoot c.coin c.keccak data r ∧
      data.length = blob.length ∧ ¬ data.length < kMinSize ∧
      ((parseBlob word64 c.coin data.length c.fuel true).run (source data)).outcome = .ok r ∧
      Laid c.coin data.length (reads data (parseBlob word64 c.coin data.length c.fuel true)) r := by
  obtain ⟨hmin, r, horiginal, hrun, hlaid⟩ := laid_of_parse hsafe hsize hd.parsed
  obtain ⟨hashes, merkle, hfields⟩ := withRoot_fields c.coin c.keccak blob r
  have hnonce : original.txExtraNonce = r.1.txExtraNonce ∧
      original.txExtraNonceOffset = r.1.txExtraNonceOffset := by
    rw [horiginal, hfields]
    exact ⟨rfl, rfl⟩
  have hsixteen : r.1.txExtraNonce.size = 16 := by
    rw [← hnonce.1]
    exact hd.reserved
  have hat := hlaid.extraNonce (by omega)
  have hfit := hd.fits
  have hentropy := hd.entropy_length
  have hunread : ∀ p, reads blob (parseBlob word64 c.coin blob.length c.fuel true) p →
      p < original.txExtraNonceOffset ∨ original.txExtraNonceOffset + entropy.length ≤ p := by
    intro p hp
    rw [hnonce.2, hentropy]
    have hout := hat.unread p hp
    rwa [hsixteen] at hout
  have hlength : data.length = blob.length := by
    rw [hd.data_eq, Hex.length_patch hfit]
  have hsame := run_patch hfit hunread
  have hparse : (parse c.coin c.keccak _ c.fuel true).outcome = _ :=
    parse_patch hfit hmin hrun hunread
  rw [← hd.data_eq] at hsame hparse
  have hmutated : mutated = withRoot c.coin c.keccak data r :=
    Except.ok.inj (hd.derived.symm.trans hparse)
  refine ⟨r, horiginal, hmutated, hlength, ?_, ?_, ?_⟩
  · rwa [hlength]
  · rw [hlength, hsame]
    exact hrun
  · unfold reads at hlaid ⊢
    rw [hlength, hsame]
    exact hlaid

end Derivation

section Work

/-- The block that a nonce completes is the template with the reserved bytes and the nonce changed,
and its hashing blob is the one that was issued, with the nonce where the miner wrote it. -/
def SubmitsIssuedWork (c : Settings) (entropy : Buffer) (snapshot : Snapshot) (issued : Issued) :
    Prop :=
  ∀ blob original, Hex.decode snapshot.blocktemplateBlob.toList = some blob →
    (parse c.coin c.keccak blob c.fuel true).outcome = .ok original →
    ∀ contexts, findContext issued.job.id contexts = some issued.context →
    ∀ (nonce : Buffer) (text : String), Hex.decode text.toList = some nonce → nonce.length = 4 →
    ∀ result : JobResult, result.jobId = some issued.job.id → result.nonce = some text →
      result.extraNonce = -1 →
      ∃ block bytes t, finalizedBlob c contexts result = some block ∧
        Hex.decode block.toList = some bytes ∧
        bytes = patch (patch blob original.txExtraNonceOffset entropy) original.nonceOffset nonce ∧
        (parse c.coin c.keccak bytes c.fuel true).outcome = .ok t ∧
        t.generateHashingBlob bytes = patch issued.job.blob issued.job.nonceOffset nonce

variable {blob data : Buffer} {original mutated : BlockTemplate}

/-- Without a signature and an extra nonce only the nonce is written. -/
theorem finalizedBlob_eq_some {result : JobResult} {text : String} {nonce : Buffer} {block : String}
    (hd : Derived c entropy snapshot issued blob original data mutated)
    (hunsigned : issued.context.hasMinerSignature = false)
    (hfind : findContext issued.job.id contexts = some issued.context)
    (hid : result.jobId = some issued.job.id) (hresult : result.nonce = some text)
    (hextra : result.extraNonce = -1) (htext : Hex.decode text.toList = some nonce)
    (hfour : nonce.length = 4) :
    finalizedBlob c contexts result = some block ↔
      ∃ t, issued.job.nonceOffset + 4 ≤ data.length ∧
        Hex.decode block.toList = some (patch data issued.job.nonceOffset nonce) ∧
        writeText issued.context.blocktemplate (issued.job.nonceOffset * 2) text.toList =
          some block ∧
        (parse c.coin c.keccak (patch data issued.job.nonceOffset nonce) c.fuel true).outcome =
          .ok t := by
  have height : text.toList.length = 8 := by
    rw [Hex.decode_length htext, hfour]
  have hsignature : ∀ blocktemplate,
      writeSignature issued.context result blocktemplate = some blocktemplate := by
    intro blocktemplate
    unfold writeSignature
    rw [hunsigned]
    rfl
  have hnone : ∀ blocktemplate, writeExtraNonce issued.context (-1) blocktemplate =
      some blocktemplate := fun blocktemplate => rfl
  unfold finalizedBlob
  simp only [hid, hfind, hresult, hextra, hd.nonceOffset, height, hsignature, hnone,
    Option.bind_eq_bind, Option.bind_some, Option.bind_eq_some_iff, Option.guard_eq_some',
    exists_const, Option.pure_def, Option.some.injEq, Prod.exists]
  constructor
  · rintro ⟨-, blocktemplate, hwrite, bytes, t, hparse, rfl⟩
    obtain ⟨hbytes, hparsed⟩ := parseText_eq_some.mp hparse
    obtain ⟨hwritten, hfit⟩ := decode_writeText hd.kept htext hwrite
    obtain rfl := Option.some.inj (hbytes.symm.trans hwritten)
    exact ⟨t, by rwa [hfour] at hfit, hbytes, hwrite, hparsed⟩
  · rintro ⟨t, -, hbytes, hwrite, hparsed⟩
    exact ⟨trivial, block, hwrite, _, t, parseText_eq_some.mpr ⟨hbytes, hparsed⟩, rfl⟩

/-- The nonce has to be where the parse found it. -/
theorem Derived.offset_of_submits
    (hd : Derived c entropy snapshot issued blob original data mutated)
    (hunsigned : issued.context.hasMinerSignature = false)
    (h : SubmitsIssuedWork c entropy snapshot issued) :
    issued.job.nonceOffset = original.nonceOffset := by
  have hfind : findContext issued.job.id [issued.context] = some issued.context := by
    unfold findContext
    rw [List.find?_cons_of_pos (by simp [hd.id_eq])]
  have hwritten : ∀ y : UInt8, issued.job.nonceOffset + 4 ≤ data.length ∧
      patch data issued.job.nonceOffset (List.replicate 4 y) =
        patch data original.nonceOffset (List.replicate 4 y) := by
    intro y
    have htext := decode_toHex (List.replicate 4 y)
    obtain ⟨block, bytes, t, hblock, hbytes, heq, -, -⟩ :=
      h blob original hd.template hd.parsed _ hfind
      _ _ htext List.length_replicate
      { jobId := some issued.job.id, nonce := some (toHex (List.replicate 4 y)) } rfl rfl rfl
    obtain ⟨-, hfit, hdecoded, -, -⟩ := (finalizedBlob_eq_some hd hunsigned hfind rfl rfl rfl htext
      List.length_replicate).mp hblock
    refine ⟨hfit, ?_⟩
    have hsame := Option.some.inj (hdecoded.symm.trans hbytes)
    rw [hsame, heq, hd.data_eq]
  refine Hex.eq_of_patch_eq (by decide) (hwritten 0).1 (fun y => (hwritten y).2) fun x => ?_
  exact ⟨x + 1, by simp⟩

theorem Derived.submits_of_offset
    (hd : Derived c entropy snapshot issued blob original data mutated)
    (hunsigned : issued.context.hasMinerSignature = false) (hsize : blob.length < 2 ^ 32)
    (hsafe : ParsesSafely c.coin c.keccak blob true)
    (hoffset : issued.job.nonceOffset = original.nonceOffset) :
    SubmitsIssuedWork c entropy snapshot issued := by
  obtain ⟨r, horiginal, hmutated, hlength, hmin, hrun, hlaid⟩ := hd.laid hsafe hsize
  obtain ⟨hashes, merkle, hfields⟩ := withRoot_fields c.coin c.keccak blob r
  have hnonceOffset : issued.job.nonceOffset = r.1.nonceOffset := by
    rw [hoffset, horiginal, hfields]
  intro blob' original' htemplate hparsed contexts hfind nonce text htext hfour result hid hresult
    hextra
  obtain rfl := Option.some.inj (hd.template.symm.trans htemplate)
  obtain rfl := Except.ok.inj (hd.parsed.symm.trans hparsed)
  have hbefore : issued.job.nonceOffset + nonce.length ≤ r.1.minerTxPrefixOffset := by
    rw [hfour, hnonceOffset]
    exact hlaid.nonce
  have hend : r.1.minerTxPrefixOffset ≤ data.length := hlaid.prefix_le.trans hlaid.end_le
  have hfit : issued.job.nonceOffset + nonce.length ≤ data.length := hbefore.trans hend
  have hunread : ∀ p, reads data (parseBlob word64 c.coin data.length c.fuel true) p →
      p < issued.job.nonceOffset ∨ issued.job.nonceOffset + nonce.length ≤ p := by
    intro p hp
    rw [hfour, hnonceOffset]
    exact hlaid.nonce_unread p hp
  have hparse : (parse c.coin c.keccak _ c.fuel true).outcome = _ :=
    parse_patch hfit hmin hrun hunread
  rw [withRoot_patch_before hlaid hbefore, ← hmutated] at hparse
  obtain ⟨block, hwrite⟩ := exists_writeText hd.kept htext hfit
  obtain ⟨hbytes, -⟩ := decode_writeText hd.kept htext hwrite
  refine ⟨block, _, mutated, ?_, hbytes, ?_, hparse, ?_⟩
  · exact (finalizedBlob_eq_some hd hunsigned hfind hid hresult hextra htext hfour).mpr
      ⟨mutated, by omega, hbytes, hwrite, hparse⟩
  · rw [hoffset, hd.data_eq]
  · obtain ⟨hashes', merkle', hfields'⟩ := withRoot_fields c.coin c.keccak data r
    have hprefix : mutated.minerTxPrefixOffset = r.1.minerTxPrefixOffset := by
      rw [hmutated, hfields']
    have htake : (patch data issued.job.nonceOffset nonce).take mutated.minerTxPrefixOffset =
        patch (data.take mutated.minerTxPrefixOffset) issued.job.nonceOffset nonce := by
      have hslice := Hex.slice_patch hfit (Nat.zero_le _)
        (n := mutated.minerTxPrefixOffset) (by omega)
      exact hslice
    have hroom : issued.job.nonceOffset + nonce.length ≤
        (data.take mutated.minerTxPrefixOffset).length := by
      rw [List.length_take]
      omega
    rw [hd.blob_eq]
    unfold generateHashingBlob
    rw [htake, List.append_assoc, List.append_assoc]
    exact (Hex.patch_append_left hroom _).symm

end Work

section Claim

variable {blob : Buffer} {original : BlockTemplate}

/-- Submitted blocks are the issued work only where the nonce of the job is that of the template,
and they are for every template of that kind that is parsed safely. A template comes as the text of
a JSON string, whose length is kept in 32 bits. -/
theorem submitted_block_is_issued_work
    (hissued : installTemplate c entropy ids now contexts snapshot = some issued)
    (hunsigned : issued.context.hasMinerSignature = false)
    (hlength : snapshot.blocktemplateBlob.toList.length < 2 ^ 32)
    (hblob : Hex.decode snapshot.blocktemplateBlob.toList = some blob)
    (hparsed : (parse c.coin c.keccak blob c.fuel true).outcome = .ok original) :
    (SubmitsIssuedWork c entropy snapshot issued →
      issued.job.nonceOffset = original.nonceOffset) ∧
    (issued.job.nonceOffset = original.nonceOffset → ParsesSafely c.coin c.keccak blob true →
      SubmitsIssuedWork c entropy snapshot issued) := by
  obtain ⟨blob', original', data, mutated, hd⟩ := derived_of_installTemplate hissued
  obtain rfl := Option.some.inj (hd.template.symm.trans hblob)
  obtain rfl := Except.ok.inj (hd.parsed.symm.trans hparsed)
  have hsize := Hex.decode_length hblob
  exact ⟨hd.offset_of_submits hunsigned, fun hoffset hsafe =>
    hd.submits_of_offset hunsigned (by omega) hsafe hoffset⟩

/-- A template with an extra nonce of the reserved size and no transactions. -/
def workTemplate (timestamp : Buffer) : Buffer :=
  [16, 16] ++ timestamp ++ List.replicate 32 3 ++ List.replicate 4 0 ++
    [2, 60, 1, 0xFF, 9, 1, 0, 2] ++ List.replicate 32 0 ++ [18, 2, 16] ++
      List.replicate 16 0 ++ [0, 0]

def workSettings : Settings where
  coin := .SUMO
  keccak := sumHash
  fuel := 4

/-- What the parse gives of a template, if anything. -/
def parsedFields (data : Buffer) : BlockTemplate :=
  match (parse .SUMO sumHash data 4 true).outcome with
  | .ok t => t
  | .error _ => {}

/-- As the daemon sends it, with the blob that is hashed. -/
def workSnapshot (timestamp : Buffer) : Snapshot where
  blocktemplateBlob := toHex (workTemplate timestamp)
  blockhashingBlob := toHex
    ((parsedFields (workTemplate timestamp)).generateHashingBlob (workTemplate timestamp))
  seedHash := toHex (List.replicate 32 4)
  previousSeedHash := ""
  nextSeedHash := ""
  prevHash := toHex (List.replicate 32 3)
  difficulty := 1000
  height := 9
  reservedOffset := timestamp.length + 81
  reserveSize := 16
  generation := 1
  fetchedSteadyMs := 0
  request := { requestId := 1 }

def workEntropy : Buffer := List.replicate 16 7

/-- Thirty-five bits of a timestamp take five bytes, one bit more takes six. -/
def lateTimestamp : Buffer := [128, 128, 128, 128, 128, 1]

/-- Templates with such timestamps become jobs, and what they are parsed as. -/
structure Suits (timestamp : Buffer) (original mutated : BlockTemplate) : Prop where
  parsed : (parse .SUMO sumHash (workTemplate timestamp) 4 true).outcome = .ok original
  reserved : original.txExtraNonce.size = kEntropySize ∧
    timestamp.length + 81 = original.txExtraNonceOffset ∧
    original.txExtraNonceOffset + kEntropySize ≤ (workTemplate timestamp).length
  derived : (parse .SUMO sumHash (patch (workTemplate timestamp) original.txExtraNonceOffset
    workEntropy) 4 true).outcome = .ok mutated
  kept : mutated.txExtraNonce.size = kEntropySize ∧
    mutated.txExtraNonceOffset = original.txExtraNonceOffset
  unsigned : mutated.hasMinerSignature = false
  room : 43 ≤ (mutated.generateHashingBlob (patch (workTemplate timestamp)
    original.txExtraNonceOffset workEntropy)).length
  max : (mutated.generateHashingBlob (patch (workTemplate timestamp)
    original.txExtraNonceOffset workEntropy)).length < Job.kMaxBlobSize

theorem suits_late : Suits lateTimestamp (parsedFields (workTemplate lateTimestamp))
    (parsedFields (patch (workTemplate lateTimestamp) 87 workEntropy)) := by
  constructor <;> decide +kernel

theorem workJob_offsets (t : BlockTemplate) : (newJob workSettings t).nonceOffset = 39 ∧
    (newJob workSettings t).nonceSize = 4 := by
  have halgorithm : (newJob workSettings t).algorithm = Algorithm.CN_R := rfl
  unfold Job.nonceOffset Job.nonceSize
  rw [halgorithm]
  decide

theorem exists_work {timestamp : Buffer} {original mutated : BlockTemplate}
    (h : Suits timestamp original mutated) :
    ∃ issued, installTemplate workSettings workEntropy ["a"] 0 [] (workSnapshot timestamp) =
      some issued := by
  obtain ⟨hoffset, hsize⟩ := workJob_offsets mutated
  have hroom : (newJob workSettings mutated).nonceOffset + (newJob workSettings mutated).nonceSize ≤
      (mutated.generateHashingBlob (patch (workTemplate timestamp) original.txExtraNonceOffset
        workEntropy)).length := by
    rw [hoffset, hsize]
    exact h.room
  exact exists_issued (by decide) rfl rfl h.parsed h.reserved rfl h.derived h.kept h.unsigned hroom
    h.max ⟨rfl, rfl⟩ rfl

/-- What is known of the job of such a template. -/
theorem work_derived {timestamp : Buffer} {original mutated : BlockTemplate} {issued : Issued}
    (h : Suits timestamp original mutated)
    (hissued : installTemplate workSettings workEntropy ["a"] 0 [] (workSnapshot timestamp) =
      some issued) :
    Hex.decode (workSnapshot timestamp).blocktemplateBlob.toList = some (workTemplate timestamp) ∧
      issued.context.hasMinerSignature = false ∧ issued.job.nonceOffset = 39 ∧
      ∃ data, Derived workSettings workEntropy (workSnapshot timestamp) issued
        (workTemplate timestamp) original data mutated := by
  have hdecode : Hex.decode (workSnapshot timestamp).blocktemplateBlob.toList =
      some (workTemplate timestamp) := decode_toHex _
  obtain ⟨blob, original', data, mutated', hd⟩ := derived_of_installTemplate hissued
  obtain rfl := Option.some.inj (hd.template.symm.trans hdecode)
  obtain rfl := Except.ok.inj (hd.parsed.symm.trans h.parsed)
  have hderived := hd.derived
  rw [hd.data_eq] at hderived
  obtain rfl := Except.ok.inj (hderived.symm.trans h.derived)
  refine ⟨hdecode, ?_, ?_, data, hd⟩
  · rw [hd.signed]
    exact h.unsigned
  · unfold Job.nonceOffset
    rw [hd.algorithm]
    exact (workJob_offsets mutated').1

/-- The nonce of a block with a late timestamp is written a byte before its place. -/
theorem late_timestamp_spoils_block : ¬ ∀ c entropy ids now contexts snapshot issued,
    installTemplate c entropy ids now contexts snapshot = some issued →
    issued.context.hasMinerSignature = false →
    SubmitsIssuedWork c entropy snapshot issued := by
  intro h
  obtain ⟨issued, hissued⟩ := exists_work suits_late
  obtain ⟨-, hunsigned, hjob, data, hd⟩ := work_derived suits_late hissued
  have hoffset := hd.offset_of_submits hunsigned (h _ _ _ _ _ _ _ hissued hunsigned)
  rw [hjob] at hoffset
  have hforty : (parsedFields (workTemplate lateTimestamp)).nonceOffset = 40 := by decide +kernel
  omega

instance (length : ℕ) : DecidablePred (Access.Fits length)
  | .advance index n => inferInstanceAs (Decidable (index + n < 2 ^ 64))
  | .input start n => inferInstanceAs (Decidable (start + n ≤ length))
  | .shift amount => inferInstanceAs (Decidable (amount < 64))
  | .write position n capacity => inferInstanceAs (Decidable (position + n ≤ capacity))
  | .move _ _ _ => inferInstanceAs (Decidable True)
  | .read _ => inferInstanceAs (Decidable True)
  | .span _ _ => inferInstanceAs (Decidable True)

def usualTimestamp : Buffer := [128, 128, 128, 128, 1]

theorem suits_usual : Suits usualTimestamp (parsedFields (workTemplate usualTimestamp))
    (parsedFields (patch (workTemplate usualTimestamp) 86 workEntropy)) := by
  constructor <;> decide +kernel

theorem submitted_block_is_issued_work_usual : ∃ issued,
    installTemplate workSettings workEntropy ["a"] 0 [] (workSnapshot usualTimestamp) =
      some issued ∧ SubmitsIssuedWork workSettings workEntropy
      (workSnapshot usualTimestamp) issued := by
  obtain ⟨issued, hissued⟩ := exists_work suits_usual
  obtain ⟨hdecode, hunsigned, hjob, data, hd⟩ := work_derived suits_usual hissued
  have hlength : (workSnapshot usualTimestamp).blocktemplateBlob.toList.length < 2 ^ 32 := by
    rw [Hex.decode_length hdecode]
    decide
  have hoffset : (parsedFields (workTemplate usualTimestamp)).nonceOffset = 39 := by decide +kernel
  have hsafe : ParsesSafely .SUMO sumHash (workTemplate usualTimestamp) true :=
    (parsesSafely_iff _ _ _ _).mpr (by decide +kernel)
  exact ⟨issued, hissued, (submitted_block_is_issued_work hissued hunsigned hlength hdecode
    suits_usual.parsed).2 (hjob.trans hoffset.symm) hsafe⟩

end Claim

end XmrigProxy.DaemonClient
