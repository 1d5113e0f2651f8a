import XmrigProxy.ZmqStream

/-!
# What a stream of notifications says

The handshake and the messages of a stream are read off its bytes, without the reads in which they
come, and the answers of `readZmq` are those that they call for.
-/
namespace XmrigProxy

namespace ZmqStream

section Messages

/-- What stands in front of the next message boundary: the data, and everything that is not data. -/
structure Unfinished where
  dataSize : ℕ := 0
  overhead : ℕ := 0
  deriving DecidableEq, Repr

def Unfinished.add (flags : UInt8) (size length : ℕ) (p : Unfinished) : Unfinished where
  dataSize := if isCommand flags then p.dataSize else p.dataSize + size
  overhead := if isCommand flags then p.overhead + (length + size) else p.overhead + length

/-- The data sizes of the messages that are complete, what stands behind them, and whether it goes
beyond the limit of a message. -/
structure Scanned where
  messages : List ℕ
  unfinished : Unfinished
  tooLarge : Bool
  deriving DecidableEq, Repr

def Scanned.cons (dataSize : ℕ) (scanned : Scanned) : Scanned :=
  { scanned with messages := dataSize :: scanned.messages }

/-- The messages with data, which are the ones to be notified. -/
def Scanned.notable (scanned : Scanned) : ℕ := scanned.messages.countP (fun size => 0 < size)

/-- The frames of a list of bytes up to the first one that makes its message too large. -/
def scan (p : Unfinished) (rest : List UInt8) : Scanned :=
  match _h : header rest with
  | none => ⟨[], p, false⟩
  | some (flags, size, length) =>
      if maxZmqMessage < p.dataSize + size then ⟨[], p, true⟩
      else if rest.length < length + size then ⟨[], p, false⟩
      else if isMore flags then scan (p.add flags size length) (rest.drop (length + size))
      else (scan {} (rest.drop (length + size))).cons (p.add flags size length).dataSize
termination_by rest.length
decreasing_by
  all_goals
    have := header_length _h
    rw [List.length_drop]
    omega

theorem scan_eq (p : Unfinished) (rest : List UInt8) : scan p rest =
    match header rest with
    | none => ⟨[], p, false⟩
    | some (flags, size, length) =>
        if maxZmqMessage < p.dataSize + size then ⟨[], p, true⟩
        else if rest.length < length + size then ⟨[], p, false⟩
        else if isMore flags then scan (p.add flags size length) (rest.drop (length + size))
        else (scan {} (rest.drop (length + size))).cons (p.add flags size length).dataSize := by
  rw [scan]
  split
  · next heq => rw [heq]
  · next heq => rw [heq]

theorem scan_nil (p : Unfinished) : scan p [] = ⟨[], p, false⟩ := by
  rw [scan_eq]
  rfl

theorem notable_cons (dataSize : ℕ) (scanned : Scanned) :
    (scanned.cons dataSize).notable = scanned.notable + if 0 < dataSize then 1 else 0 := by
  unfold Scanned.notable Scanned.cons
  rw [List.countP_cons]
  by_cases hdata : 0 < dataSize
  · rw [if_pos hdata, if_pos (decide_eq_true hdata)]
  · rw [if_neg hdata, if_neg (by simpa using hdata)]

theorem tooLarge_iff (size dataSize : ℕ) :
    (maxZmqMessage < size ∨ maxZmqMessage - size < dataSize) ↔
      maxZmqMessage < dataSize + size := by
  omega

/-- The loop over the frames stops where a message is complete. -/
theorem scan_of_complete {buffer : List UInt8} (offset dataSize : ℕ)
    (hoffset : offset ≤ buffer.length) {next sent : ℕ} (overhead : ℕ) :
    parseZmqMessage buffer offset dataSize = .ok (next, sent) →
      scan ⟨dataSize, overhead⟩ (buffer.drop offset) = (scan {} (buffer.drop next)).cons sent := by
  induction offset, dataSize using frames_induction buffer generalizing overhead with
  | frame offset dataSize ih =>
      intro h
      rw [parseZmqMessage_eq hoffset] at h
      rw [scan_eq]
      rcases hheader : header (buffer.drop offset) with _ | ⟨flags, size, length⟩
      · rw [hheader] at h
        exact nomatch h
      · rw [hheader] at h
        have hlength : (buffer.drop offset).length = buffer.length - offset := List.length_drop
        dsimp only at h ⊢
        simp only [tooLarge_iff] at h
        split at h
        · exact nomatch h
        next hlarge =>
        split at h
        · exact nomatch h
        next hshort =>
        rw [if_neg hlarge, if_neg hshort, List.drop_drop]
        split at h
        · next hmore =>
            rw [if_pos hmore]
            exact ih flags size length hoffset hheader (by omega) (by omega) _ h
        · next hmore =>
            obtain ⟨rfl, rfl⟩ := Prod.mk.inj (Except.ok.inj h)
            rw [if_neg hmore]
            rfl

/-- It stops as well at the first frame that makes the message too large. -/
theorem scan_of_tooLarge {buffer : List UInt8} (offset dataSize : ℕ)
    (hoffset : offset ≤ buffer.length) (overhead : ℕ) :
    parseZmqMessage buffer offset dataSize = .error .tooLarge →
      (scan ⟨dataSize, overhead⟩ (buffer.drop offset)).messages = [] ∧
      (scan ⟨dataSize, overhead⟩ (buffer.drop offset)).tooLarge = true := by
  induction offset, dataSize using frames_induction buffer generalizing overhead with
  | frame offset dataSize ih =>
      intro h
      rw [parseZmqMessage_eq hoffset] at h
      rw [scan_eq]
      rcases hheader : header (buffer.drop offset) with _ | ⟨flags, size, length⟩
      · rw [hheader] at h
        exact nomatch h
      · rw [hheader] at h
        have hlength : (buffer.drop offset).length = buffer.length - offset := List.length_drop
        dsimp only at h ⊢
        simp only [tooLarge_iff] at h
        split at h
        · next hlarge =>
            rw [if_pos hlarge]
            exact ⟨rfl, rfl⟩
        next hlarge =>
        split at h
        · exact nomatch h
        next hshort =>
        rw [if_neg hlarge, if_neg hshort, List.drop_drop]
        split at h
        · next hmore =>
            rw [if_pos hmore]
            exact ih flags size length hoffset hheader (by omega) (by omega) _ h
        · exact nomatch h

theorem length_of_header_none {rest : List UInt8} (h : header rest = none) : rest.length ≤ 9 := by
  unfold header at h
  split at h
  · next flags size rest =>
      split_ifs at h with hlong hshort
      rw [List.length_cons]
      omega
  · next hfew =>
      rcases rest with _ | ⟨first, _ | ⟨second, rest⟩⟩
      · exact Nat.zero_le 9
      · exact Nat.succ_le_succ (Nat.zero_le 8)
      · exact absurd rfl (hfew first second rest)

/-- While it waits the data is bounded, and so is what stands behind the last complete frame. -/
theorem scan_of_incomplete {buffer : List UInt8} (offset dataSize : ℕ)
    (hoffset : offset ≤ buffer.length) (hdata : dataSize ≤ maxZmqMessage) (overhead : ℕ) :
    parseZmqMessage buffer offset dataSize = .error .incomplete →
      (scan ⟨dataSize, overhead⟩ (buffer.drop offset)).messages = [] ∧
      (scan ⟨dataSize, overhead⟩ (buffer.drop offset)).tooLarge = false ∧
      (buffer.drop offset).length + dataSize + overhead ≤
        (scan ⟨dataSize, overhead⟩ (buffer.drop offset)).unfinished.overhead +
          maxZmqMessage + 9 := by
  induction offset, dataSize using frames_induction buffer generalizing overhead with
  | frame offset dataSize ih =>
      intro h
      rw [parseZmqMessage_eq hoffset] at h
      rw [scan_eq]
      rcases hheader : header (buffer.drop offset) with _ | ⟨flags, size, length⟩
      · have hfew := length_of_header_none hheader
        refine ⟨rfl, rfl, ?_⟩
        dsimp only
        omega
      · rw [hheader] at h
        have hlength := header_length hheader
        have hdrop : (buffer.drop offset).length = buffer.length - offset := List.length_drop
        dsimp only at h ⊢
        simp only [tooLarge_iff] at h
        split at h
        · exact nomatch h
        next hlarge =>
        split at h
        · next hshort =>
            rw [if_neg hlarge, if_pos hshort]
            refine ⟨rfl, rfl, ?_⟩
            dsimp only
            omega
        next hshort =>
        split at h
        · next hmore =>
            rw [if_neg hlarge, if_neg hshort, if_pos hmore, List.drop_drop]
            unfold Unfinished.add
            dsimp only
            have hsum : (if isCommand flags then dataSize else dataSize + size) ≤
                maxZmqMessage := by
              split <;> omega
            obtain ⟨hnone, hwithin, hbound⟩ := ih flags size length hoffset hheader (by omega)
              (by omega) hsum
              (if isCommand flags then overhead + (length + size) else overhead + length) h
            refine ⟨hnone, hwithin, ?_⟩
            rw [List.length_drop] at hbound ⊢
            have htotal : (if isCommand flags then dataSize else dataSize + size) +
                (if isCommand flags then overhead + (length + size) else overhead + length) =
                dataSize + overhead + (length + size) := by
              split <;> omega
            omega
        · exact nomatch h

theorem scan_overhead_le (p : Unfinished) (rest : List UInt8) :
    (scan p rest).unfinished.overhead ≤ p.overhead + rest.length := by
  induction p, rest using scan.induct with
  | case1 p rest hheader =>
      rw [scan_eq, hheader]
      exact Nat.le_add_right _ _
  | case2 p rest flags size length hheader hlarge =>
      rw [scan_eq, hheader]
      dsimp only
      rw [if_pos hlarge]
      exact Nat.le_add_right _ _
  | case3 p rest flags size length hheader hlarge hshort =>
      rw [scan_eq, hheader]
      dsimp only
      rw [if_neg hlarge, if_pos hshort]
      exact Nat.le_add_right _ _
  | case4 p rest flags size length hheader hlarge hshort hmore ih =>
      rw [scan_eq, hheader]
      dsimp only
      rw [if_neg hlarge, if_neg hshort, if_pos hmore]
      rw [List.length_drop] at ih
      have hadd : (p.add flags size length).overhead ≤ p.overhead + (length + size) := by
        unfold Unfinished.add
        dsimp only
        split <;> omega
      omega
  | case5 p rest flags size length hheader hlarge hshort hmore ih =>
      rw [scan_eq, hheader]
      dsimp only
      rw [if_neg hlarge, if_neg hshort, if_neg hmore]
      rw [List.length_drop] at ih
      have hfresh : ({} : Unfinished).overhead = 0 := rfl
      dsimp only [Scanned.cons]
      omega

end Messages

section Delivery

variable {env : Env} {s : State} {buffer : List UInt8}

/-- What the messages of a list of bytes are answered with, where `base` of them were notified
before: one notification each, until one of them does not leave the connection open. -/
structure Delivered (env : Env) (base : ℕ) (scanned : Scanned) (r : Progress State UInt8)
    (out : List Output) (notifications : ℕ) : Prop where
  out : out = List.replicate notifications .notified ++ if r.stopped then [.closed] else []
  notified : ∀ j, j < notifications ↔
    j < scanned.notable ∧ ∀ i < j, env.survives (base + i) = true
  closed : r.stopped = true ↔
    (∃ j < scanned.notable, env.survives (base + j) = false) ∨ scanned.tooLarge = true

theorem delivered_none {scanned : Scanned} {r : Progress State UInt8} {out : List Output}
    {base : ℕ} (hnone : scanned.messages = []) (hout : out = if r.stopped then [.closed] else [])
    (hclosed : r.stopped = true ↔ scanned.tooLarge = true) :
    Delivered env base scanned r out 0 := by
  have hnotable : scanned.notable = 0 := by
    unfold Scanned.notable
    rw [hnone]
    rfl
  constructor
  · exact hout
  · intro j
    rw [hnotable]
    exact ⟨fun h => absurd h (Nat.not_lt_zero j), fun h => absurd h.1 (Nat.not_lt_zero j)⟩
  · rw [hnotable, hclosed]
    exact ⟨Or.inr, fun h => h.resolve_left fun ⟨j, hj, _⟩ => Nat.not_lt_zero j hj⟩

/-- A message without data is passed over. -/
theorem Delivered.skip {scanned : Scanned} {r : Progress State UInt8} {out : List Output}
    {base notified dataSize : ℕ} (h : Delivered env base scanned r out notified)
    (hempty : ¬ 0 < dataSize) : Delivered env base (scanned.cons dataSize) r out notified := by
  have hnotable : (scanned.cons dataSize).notable = scanned.notable := by
    rw [notable_cons, if_neg hempty]
    rfl
  exact ⟨h.out, hnotable ▸ h.notified, hnotable ▸ h.closed⟩

/-- One message with data is one notification more. -/
theorem Delivered.notify {scanned : Scanned} {r : Progress State UInt8} {out : List Output}
    {base notified dataSize : ℕ} (h : Delivered env (base + 1) scanned r out notified)
    (hdata : 0 < dataSize) (hsurvives : env.survives base = true) :
    Delivered env base (scanned.cons dataSize) r (.notified :: out) (notified + 1) := by
  have hnotable : (scanned.cons dataSize).notable = scanned.notable + 1 := by
    rw [notable_cons, if_pos hdata]
  have hshift : ∀ j, base + (j + 1) = base + 1 + j := fun j => by omega
  constructor
  · rw [h.out]
    rfl
  · intro j
    rw [hnotable]
    cases j with
    | zero => exact ⟨fun _ => ⟨Nat.succ_pos _, fun i hi => absurd hi (Nat.not_lt_zero i)⟩,
        fun _ => Nat.succ_pos _⟩
    | succ j =>
        rw [Nat.succ_lt_succ_iff, Nat.succ_lt_succ_iff, h.notified]
        refine and_congr_right fun _ => ⟨fun hall i hi => ?_, fun hall i hi => ?_⟩
        · cases i with
          | zero => exact hsurvives
          | succ i => exact hshift i ▸ hall i (Nat.lt_of_succ_lt_succ hi)
        · exact hshift i ▸ hall (i + 1) (Nat.succ_lt_succ hi)
  · rw [h.closed, hnotable]
    refine or_congr_left ⟨fun ⟨j, hj, hfails⟩ => ?_, fun ⟨j, hj, hfails⟩ => ?_⟩
    · exact ⟨j + 1, Nat.succ_lt_succ hj, hshift j ▸ hfails⟩
    · cases j with
      | zero => exact absurd (hfails.symm.trans hsurvives) Bool.false_ne_true
      | succ j => exact ⟨j, Nat.lt_of_succ_lt_succ hj, hshift j ▸ hfails⟩

/-- The connection is closed behind a notification. -/
theorem delivered_last {scanned : Scanned} {base dataSize : ℕ} (hdata : 0 < dataSize)
    (hcloses : env.survives base = false) (s : State) :
    Delivered env base (scanned.cons dataSize) ⟨s, [], true⟩ [.notified, .closed] 1 := by
  have hnotable : (scanned.cons dataSize).notable = scanned.notable + 1 := by
    rw [notable_cons, if_pos hdata]
  have hfirst : 0 < (scanned.cons dataSize).notable := by
    rw [hnotable]
    exact Nat.succ_pos _
  constructor
  · rfl
  · intro j
    constructor
    · intro hj
      obtain rfl : j = 0 := Nat.lt_one_iff.mp hj
      exact ⟨hfirst, fun i hi => absurd hi (Nat.not_lt_zero i)⟩
    · rintro ⟨-, hall⟩
      by_contra hlater
      exact absurd (hcloses.symm.trans (hall 0 (by omega))) Bool.false_ne_true
  · exact ⟨fun _ => Or.inl ⟨0, hfirst, hcloses⟩, fun _ => rfl⟩

theorem readZmqStep_connected (hphase : s.phase = .connected) :
    (readZmq env).step s buffer = readMessage env s buffer := by
  change readZmqStep env s buffer = _
  unfold readZmqStep
  rw [hphase]

theorem delivered_run (s : State) (buffer : List UInt8) : s.phase = .connected →
    ∃ notified, Delivered env s.notifications (scan {} buffer) ((readZmq env).run s buffer).1
      ((readZmq env).run s buffer).2 notified := by
  induction s, buffer using Parser.run_induction (p := readZmq env) with
  | wait s buffer h =>
      intro hphase
      rw [Parser.run_wait h]
      rw [readZmqStep_connected hphase] at h
      unfold readMessage at h
      split at h
      · next hparse =>
          obtain ⟨hnone, hwithin, -⟩ := scan_of_incomplete 0 0 (Nat.zero_le _) (Nat.zero_le _) 0
            hparse
          exact ⟨0, delivered_none hnone rfl ⟨fun h => (nomatch h), fun h =>
            absurd (hwithin.symm.trans h) Bool.false_ne_true⟩⟩
      · exact nomatch h
      · exact nomatch h
      · split at h
        · split at h <;> exact nomatch h
        · exact nomatch h
  | next s buffer s' n out h ih =>
      intro hphase
      rw [Parser.run_next h]
      rw [readZmqStep_connected hphase] at h
      unfold readMessage at h
      split at h
      · exact nomatch h
      · exact nomatch h
      · exact nomatch h
      · next offset dataSize hparse =>
          have hscan : scan {} buffer = (scan {} (buffer.drop offset)).cons dataSize :=
            scan_of_complete 0 0 (Nat.zero_le _) 0 hparse
          rw [hscan]
          split at h
          · next hdata =>
              split at h
              · next hsurvives =>
                  obtain ⟨rfl, rfl, rfl⟩ := Advance.next.inj h
                  obtain ⟨notified, hnotified⟩ := ih hphase
                  exact ⟨notified + 1, hnotified.notify hdata hsurvives⟩
              · exact nomatch h
          · next hempty =>
              obtain ⟨rfl, rfl, rfl⟩ := Advance.next.inj h
              obtain ⟨notified, hnotified⟩ := ih hphase
              exact ⟨notified, hnotified.skip hempty⟩
  | stop s buffer s' out h =>
      intro hphase
      rw [Parser.run_stop h]
      rw [readZmqStep_connected hphase] at h
      unfold readMessage at h
      split at h
      · exact nomatch h
      · next hparse =>
          obtain ⟨-, rfl⟩ := Advance.stop.inj h
          obtain ⟨hnone, hlarge⟩ := scan_of_tooLarge 0 0 (Nat.zero_le _) 0 hparse
          exact ⟨0, delivered_none hnone rfl ⟨fun _ => hlarge, fun _ => rfl⟩⟩
      · next hparse => exact absurd hparse (parseZmqMessage_inside 0 0 (Nat.zero_le _)).1
      · next offset dataSize hparse =>
          have hscan : scan {} buffer = (scan {} (buffer.drop offset)).cons dataSize :=
            scan_of_complete 0 0 (Nat.zero_le _) 0 hparse
          rw [hscan]
          split at h
          · next hdata =>
              split at h
              · exact nomatch h
              · next hcloses =>
                  obtain ⟨-, rfl⟩ := Advance.stop.inj h
                  exact ⟨1, delivered_last hdata (Bool.eq_false_of_not_eq_true hcloses) s'⟩
          · exact nomatch h

end Delivery

end ZmqStream

end XmrigProxy
