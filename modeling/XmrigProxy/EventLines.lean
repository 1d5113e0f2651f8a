import XmrigProxy.LiveEventStream

/-! A row is written as one record, with a field for each name of the header. -/
namespace XmrigProxy

namespace LiveEventStream

/-- Which field of a row a column is about. -/
def Row.field (streamId : Text) (sequence : ℕ) (now : Clock) (row : Row) : Column → Text
  | .schemaVersion => bytes "3"
  | .eventSeq => utf8 (Numerals.printInt sequence)
  | .timeUtc => utcNow now
  | .event => row.event
  | .minerId => signedNumber row.minerId
  | .mapperId => signedNumber row.mapperId
  | .minerIp => row.minerIp
  | .listenPort => number row.listenPort
  | .worker => row.worker
  | .agent => row.agent
  | .sourceId => number row.sourceId
  | .templateId => row.templateId
  | .templateAgeMs => number row.templateAgeMs
  | .refreshReason => row.refreshReason
  | .height => number row.height
  | .prevHash => row.prevHash
  | .seedHash => row.seedHash
  | .algo => row.algorithm
  | .jobId => row.jobId
  | .entropyHex => row.entropyHex
  | .minerTargetDiff => number row.minerTargetDiff
  | .networkTargetDiff => number row.networkTargetDiff
  | .shareId => number row.shareId
  | .minerRequestId => signedNumber row.minerRequestId
  | .daemonRequestId => signedNumber row.daemonRequestId
  | .nonce => row.nonce
  | .resultHash => row.resultHash
  | .shareDiff => number row.shareDiff
  | .status => row.status
  | .errorCode => signedNumber row.errorCode
  | .errorMessage => row.errorMessage
  | .latencyMs => number row.latencyMs
  | .connectionMs => number row.connectionMs
  | .rxBytes => number row.rxBytes
  | .txBytes => number row.txBytes
  | .streamId => streamId
  | .previousSeedHash => row.previousSeedHash
  | .nextSeedHash => row.nextSeedHash
  | .hashingBlob => row.hashingBlob
  | .blocktemplateBlob => row.blocktemplateBlob
  | .submittedBlockBlob => row.submittedBlockBlob
  | .minerTargetHex => row.minerTargetHex
  | .nonceOffset => number row.nonceOffset
  | .nonceSize => number row.nonceSize
  | .reservedOffset => number row.reservedOffset
  | .reservedSize => number row.reservedSize
  | .extraNonceOffset => number row.extraNonceOffset
  | .extraNonce => signedNumber row.extraNonce
  | .signatureHex => row.signatureHex
  | .viewTag => number row.viewTag
  | .blockId => row.blockId
  | .minerTxHash => row.minerTxHash
  | .verifierQueueMs => row.verifierQueueMs
  | .verifierHashMs => row.verifierHashMs
  | .verifierTotalMs => row.verifierTotalMs
  | .verifierPrepareMs => row.verifierPrepareMs
  | .verifierActive => number row.verifierActive
  | .verifierQueued => number row.verifierQueued
  | .verifierQueueLimit => number row.verifierQueueLimit
  | .verifierSeedCount => number row.verifierSeedCount
  | .verifierSeedCapacity => number row.verifierSeedCapacity
  | .verifierSeedRole => row.verifierSeedRole
  | .verifierSeedStatus => row.verifierSeedStatus
  | .verifierVmPoolSize => number row.verifierVmPoolSize
  | .verifierStatsJson => row.verifierStatsJson

def Column.maxBytes : Column → Option ℕ
  | .worker => some 256
  | .agent => some 512
  | .jobId => some 256
  | .errorMessage => some 2048
  | .signatureHex => some 256
  | _ => none

def columns : List Column :=
  [.schemaVersion, .eventSeq, .timeUtc, .event, .minerId, .mapperId, .minerIp, .listenPort,
   .worker, .agent, .sourceId, .templateId, .templateAgeMs, .refreshReason, .height, .prevHash,
   .seedHash, .algo, .jobId, .entropyHex, .minerTargetDiff, .networkTargetDiff, .shareId,
   .minerRequestId, .daemonRequestId, .nonce, .resultHash, .shareDiff, .status, .errorCode,
   .errorMessage, .latencyMs, .connectionMs, .rxBytes, .txBytes, .streamId, .previousSeedHash,
   .nextSeedHash, .hashingBlob, .blocktemplateBlob, .submittedBlockBlob, .minerTargetHex,
   .nonceOffset, .nonceSize, .reservedOffset, .reservedSize, .extraNonceOffset, .extraNonce,
   .signatureHex, .viewTag, .blockId, .minerTxHash, .verifierQueueMs, .verifierHashMs,
   .verifierTotalMs, .verifierPrepareMs, .verifierActive, .verifierQueued, .verifierQueueLimit,
   .verifierSeedCount, .verifierSeedCapacity, .verifierSeedRole, .verifierSeedStatus,
   .verifierVmPoolSize, .verifierStatsJson]

/-- What the column shows of a field. -/
def shown (c : Column) (value : Text) : Text :=
  sanitize (match Column.maxBytes c with
    | none => value
    | some maxBytes => boundedText value maxBytes)

def Row.shown (streamId : Text) (sequence : ℕ) (now : Clock) (row : Row) (c : Column) : Text :=
  LiveEventStream.shown c (row.field streamId sequence now c)

section Sanitize

theorem mem_escape {c x : UInt8} (hx : x ∈ escape c) : 0x20 ≤ x ∧ x ≠ 0x7f := by
  have hall : ∀ n < 256, ∀ x ∈ escape (UInt8.ofNat n), 0x20 ≤ x ∧ x ≠ 0x7f := by decide +kernel
  have hc : c = UInt8.ofNat c.toNat := (UInt8.ofNat_toNat).symm
  rw [hc] at hx
  exact hall c.toNat c.toNat_lt x hx

/-- No control character is left. -/
theorem mem_sanitize {input : Text} {x : UInt8} (hx : x ∈ sanitize input) :
    0x20 ≤ x ∧ x ≠ 0x7f := by
  obtain ⟨c, -, hc⟩ := List.mem_flatMap.mp hx
  exact mem_escape hc

theorem sanitize_newline {input : Text} {x : UInt8} (hx : x ∈ sanitize input) :
    x ≠ csvBytes.cr ∧ x ≠ csvBytes.lf := by
  have hlow := (mem_sanitize hx).1
  constructor
  · rintro rfl
    exact absurd hlow (by decide)
  · rintro rfl
    exact absurd hlow (by decide)

end Sanitize

section Truncation

theorem cutPosition_le (input : Text) (last : ℕ) : cutPosition input last ≤ last := by
  induction last with
  | zero => exact le_rfl
  | succ last ih =>
      unfold cutPosition
      split
      · omega
      · exact le_rfl

theorem cutPosition_utf8 {cs : List Char} {last : ℕ} (hlast : last < (utf8 cs).length) :
    ∃ kept rest, cs = kept ++ rest ∧ cutPosition (utf8 cs) last = (utf8 kept).length := by
  induction last with
  | zero => exact ⟨[], cs, rfl, rfl⟩
  | succ last ih =>
      by_cases hcontinues : isContinuation ((utf8 cs).getD (last + 1) 0) = true
      · obtain ⟨kept, rest, hcs, hcut⟩ := ih (by omega)
        refine ⟨kept, rest, hcs, ?_⟩
        unfold cutPosition
        rw [if_pos hcontinues, hcut]
      · obtain ⟨kept, rest, hcs, hcut⟩ :=
          starts_of_not_continuation hlast (Bool.not_eq_true _ ▸ hcontinues)
        refine ⟨kept, rest, hcs, ?_⟩
        unfold cutPosition
        rw [if_neg hcontinues, hcut]

/-- Text is cut between two characters. -/
theorem boundedText_utf8 (cs : List Char) (maxBytes : ℕ) :
    ∃ kept rest, cs = kept ++ rest ∧ (utf8 kept).length ≤ maxBytes ∧
      boundedText (utf8 cs) maxBytes =
        if (utf8 cs).length ≤ maxBytes then utf8 kept else utf8 kept ++ bytes "...[truncated]" := by
  unfold boundedText
  by_cases hfits : (utf8 cs).length ≤ maxBytes
  · refine ⟨cs, [], (List.append_nil cs).symm, hfits, ?_⟩
    rw [if_pos hfits, if_pos hfits]
  · obtain ⟨kept, rest, rfl, hcut⟩ := cutPosition_utf8 (Nat.lt_of_not_le hfits)
    refine ⟨kept, rest, rfl, hcut ▸ cutPosition_le _ _, ?_⟩
    rw [if_neg hfits, if_neg hfits, hcut, utf8_append, List.take_left]

end Truncation

section Line

theorem foldl_appendCsvField {output : Text} (houtput : output ≠ []) (values : List Text) :
    values.foldl appendCsvField output =
      output ++ values.flatMap fun value =>
        csvBytes.comma :: Csv.writeField csvBytes (sanitize value) := by
  induction values generalizing output with
  | nil => exact (List.append_nil output).symm
  | cons value rest ih =>
      have hnext : appendCsvField output value =
          output ++ csvBytes.comma :: Csv.writeField csvBytes (sanitize value) := by
        unfold appendCsvField
        rw [if_neg houtput, List.append_assoc]
        rfl
      rw [List.foldl_cons, hnext, ih, List.flatMap_cons, List.append_assoc]
      exact fun h => houtput (List.append_eq_nil_iff.mp h).1

theorem writeLine_cons (value : Text) (rest : List Text) :
    Csv.writeLine csvBytes (value :: rest) = Csv.writeField csvBytes value ++
      rest.flatMap fun value => csvBytes.comma :: Csv.writeField csvBytes value := by
  induction rest generalizing value with
  | nil => exact (List.append_nil _).symm
  | cons next rest ih =>
      have hline : Csv.writeLine csvBytes (value :: next :: rest) =
          Csv.writeField csvBytes value ++
            csvBytes.comma :: Csv.writeLine csvBytes (next :: rest) := rfl
      rw [hline, ih, List.flatMap_cons]
      rfl

/-- The fields one after the other are a line of sanitised fields. -/
theorem foldl_appendCsvField_nil {value : Text}
    (hvalue : Csv.writeField csvBytes (sanitize value) ≠ []) (rest : List Text) :
    (value :: rest).foldl appendCsvField [] =
      Csv.writeLine csvBytes ((value :: rest).map sanitize) := by
  have hfirst : appendCsvField [] value = Csv.writeField csvBytes (sanitize value) := rfl
  rw [List.foldl_cons, hfirst, foldl_appendCsvField hvalue, List.map_cons, writeLine_cons,
    List.flatMap_map]

theorem csv_eq_writeLine (streamId : Text) (sequence : ℕ) (now : Clock) (row : Row) :
    csv streamId sequence now row =
      Csv.writeLine csvBytes (columns.map (row.shown streamId sequence now)) ++ [csvBytes.lf] := by
  unfold csv
  rw [foldl_appendCsvField_nil (by decide)]
  rfl

theorem csvHeader_eq_writeLine :
    csvHeader = Csv.writeLine csvBytes (columns.map fun c => bytes c.name) ++ [csvBytes.lf] := by
  decide +kernel

/-- A row is one record of as many fields as the header has names, in its order, and each is what
the column shows of the field of that name; truncation never splits a character. -/
theorem csv_record (streamId : Text) (sequence : ℕ) (now : Clock) (row : Row) :
    ∃ header line, csvHeader = header ++ [csvBytes.lf] ∧
      csv streamId sequence now row = line ++ [csvBytes.lf] ∧
      (∀ c ∈ line, c ≠ csvBytes.cr ∧ c ≠ csvBytes.lf) ∧
      (∀ names, Csv.Record csvBytes header names ↔ names = columns.map fun c => bytes c.name) ∧
      (∀ fields, Csv.Record csvBytes line fields ↔
        fields = columns.map (row.shown streamId sequence now)) ∧
      ∀ (cs : List Char) (maxBytes : ℕ), ∃ kept rest, cs = kept ++ rest ∧
        (utf8 kept).length ≤ maxBytes ∧
        boundedText (utf8 cs) maxBytes =
          if (utf8 cs).length ≤ maxBytes then utf8 kept
          else utf8 kept ++ bytes "...[truncated]" := by
  have hshown : ∀ value ∈ columns.map (row.shown streamId sequence now), ∀ c ∈ value,
      c ≠ csvBytes.cr ∧ c ≠ csvBytes.lf := by
    intro value hvalue c hc
    obtain ⟨column, -, rfl⟩ := List.mem_map.mp hvalue
    exact sanitize_newline hc
  have hnames : ∀ value ∈ columns.map (fun c => bytes c.name), ∀ c ∈ value,
      c ≠ csvBytes.cr ∧ c ≠ csvBytes.lf := by decide +kernel
  have hnonempty : ∀ f : Column → Text, columns.map f ≠ [] := fun f h =>
    absurd (List.map_eq_nil_iff.mp h) (List.cons_ne_nil _ _)
  have hheader := Csv.record_writeLine (hnonempty _) hnames
  have hline := Csv.record_writeLine (hnonempty _) hshown
  refine ⟨_, _, csvHeader_eq_writeLine, csv_eq_writeLine streamId sequence now row, ?_, ?_, ?_,
    boundedText_utf8⟩
  · intro c hc
    rcases Csv.mem_writeLine hc with rfl | rfl | ⟨value, hvalue, hc⟩
    · exact ⟨csvBytes.cr_ne_quote.symm, csvBytes.lf_ne_quote.symm⟩
    · exact ⟨csvBytes.cr_ne_comma.symm, csvBytes.lf_ne_comma.symm⟩
    · exact hshown value hvalue c hc
  · intro names
    exact ⟨fun h => Csv.record_unique h hheader, fun h => h ▸ hheader⟩
  · intro fields
    exact ⟨fun h => Csv.record_unique h hline, fun h => h ▸ hline⟩

end Line

end LiveEventStream

end XmrigProxy
