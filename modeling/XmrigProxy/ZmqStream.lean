import XmrigProxy.Library.Incremental
import XmrigProxy.Library.Utf8

/-! The notifications of a daemon: a handshake, then multipart messages, read as they come. -/
namespace XmrigProxy

namespace ZmqStream

def maxZmqMessage : ℕ := 64 * 1024

def zmqGreeting : List UInt8 :=
  [255, 0, 0, 0, 0, 0, 0, 0, 0, 127, 3, 0] ++ bytes "NULL" ++ List.replicate 48 0

def zmqGreetingSize1 : ℕ := 11

def zmqHandshake : List UInt8 :=
  [4, 25, 5] ++ bytes "READY" ++ [11] ++ bytes "Socket-Type" ++ [0, 0, 0, 3] ++ bytes "SUB"

def zmqSubscribe : List UInt8 := [0, 24, 1] ++ bytes "json-minimal-chain_main"

/-- Why a read of the buffer does not go on; `overrun` stands for an access outside of it. -/
inductive Halt where
  | incomplete
  | tooLarge
  | overrun
  deriving DecidableEq, Repr

section Messages

/-- The bytes behind an offset, a difference of unsigned numbers. -/
def remaining (buffer : List UInt8) (offset : ℕ) : Except Halt ℕ :=
  if offset ≤ buffer.length then .ok (buffer.length - offset) else .error .overrun

def byteAt (buffer : List UInt8) (offset : ℕ) : Except Halt UInt8 :=
  match buffer[offset]? with
  | some b => .ok b
  | none => .error .overrun

def slice (buffer : List UInt8) (offset size : ℕ) : Except Halt (List UInt8) :=
  if offset + size ≤ buffer.length then .ok ((buffer.drop offset).take size) else .error .overrun

def bigEndian (encoded : List UInt8) : ℕ := encoded.foldl (fun n b => n * 256 + b.toNat) 0

def isMore (flags : UInt8) : Bool := flags &&& 1 ≠ 0

def isLong (flags : UInt8) : Bool := flags &&& 2 ≠ 0

def isCommand (flags : UInt8) : Bool := flags &&& 4 ≠ 0

/-- The flags and the size of a frame, and where its content begins. -/
def readHeader (buffer : List UInt8) (offset : ℕ) : Except Halt (UInt8 × ℕ × ℕ) := do
  if (← remaining buffer offset) < 2 then throw .incomplete
  let flags ← byteAt buffer offset
  if isLong flags then
    if (← remaining buffer (offset + 1)) < 8 then throw .incomplete
    let encoded ← slice buffer (offset + 1) 8
    return (flags, bigEndian encoded, offset + 9)
  else
    let size ← byteAt buffer (offset + 1)
    return (flags, size.toNat, offset + 2)

/-- A frame in front of a list of bytes: its flags, its size and the length of its header. -/
def header : List UInt8 → Option (UInt8 × ℕ × ℕ)
  | flags :: size :: rest =>
      if isLong flags then
        if (size :: rest).length < 8 then none
        else some (flags, bigEndian ((size :: rest).take 8), 9)
      else some (flags, size.toNat, 2)
  | _ => none

theorem header_length {rest : List UInt8} {flags : UInt8} {size length : ℕ}
    (h : header rest = some (flags, size, length)) :
    2 ≤ length ∧ length ≤ 9 ∧ length ≤ rest.length := by
  unfold header at h
  split at h
  · next flags size rest =>
      split_ifs at h with hlong hshort
      · obtain ⟨rfl, rfl, rfl⟩ := Option.some.inj h
        simp only [List.length_cons] at hshort ⊢
        omega
      · obtain ⟨rfl, rfl, rfl⟩ := Option.some.inj h
        simp only [List.length_cons]
        omega
  · exact nomatch h

/-- No header is read from outside the buffer. -/
theorem readHeader_eq {buffer : List UInt8} {offset : ℕ} (hoffset : offset ≤ buffer.length) :
    readHeader buffer offset = match header (buffer.drop offset) with
      | none => .error .incomplete
      | some (flags, size, length) => .ok (flags, size, offset + length) := by
  have hlength : (buffer.drop offset).length = buffer.length - offset := List.length_drop
  unfold readHeader remaining
  rw [if_pos hoffset]
  rcases hrest : buffer.drop offset with _ | ⟨flags, _ | ⟨size, rest⟩⟩
  · rw [hrest] at hlength
    have hfew : buffer.length - offset < 2 := by
      rw [← hlength]
      decide
    simp only [bind, Except.bind, hfew, if_true]
    rfl
  · rw [hrest] at hlength
    have hfew : buffer.length - offset < 2 := by
      rw [← hlength]
      exact Nat.lt_succ_self 1
    simp only [bind, Except.bind, hfew, if_true]
    rfl
  · rw [hrest] at hlength
    simp only [List.length_cons] at hlength
    have hmany : ¬ buffer.length - offset < 2 := by omega
    have hflags : buffer[offset]? = some flags := by
      rw [← Nat.add_zero offset, ← List.getElem?_drop, hrest]
      rfl
    have hsize : buffer[offset + 1]? = some size := by
      rw [← List.getElem?_drop, hrest]
      rfl
    have hnext : buffer.drop (offset + 1) = size :: rest := by
      rw [← List.drop_drop, hrest]
      rfl
    have hinside : offset + 1 ≤ buffer.length := by omega
    simp only [bind, Except.bind, hmany, if_false, byteAt, hflags, hsize, hinside, if_true, header]
    by_cases hlong : isLong flags = true
    · simp only [hlong, if_true]
      by_cases hshort : (size :: rest).length < 8
      · have hfew : buffer.length - (offset + 1) < 8 := by
          simp only [List.length_cons] at hshort
          omega
        simp only [hshort, hfew, if_true]
        rfl
      · have hall : ¬ buffer.length - (offset + 1) < 8 := by
          simp only [List.length_cons] at hshort
          omega
        have hslice : offset + 1 + 8 ≤ buffer.length := by
          simp only [List.length_cons] at hshort
          omega
        simp only [hshort, hall, if_false, slice, hslice, if_true, hnext]
        rfl
    · simp only [hlong]
      rfl

/-- What the loop over the frames of one message comes to: the offset behind the message and the
size of its data, which commands are not part of. -/
def parseZmqMessage (buffer : List UInt8) (offset dataSize : ℕ) : Except Halt (ℕ × ℕ) :=
  match _h : readHeader buffer offset with
  | .error halt => .error halt
  | .ok (flags, size, next) =>
      if maxZmqMessage < size ∨ maxZmqMessage - size < dataSize then .error .tooLarge
      else match remaining buffer next with
        | .error halt => .error halt
        | .ok rest =>
            if rest < size then .error .incomplete
            else
              let dataSize := if isCommand flags then dataSize else dataSize + size
              if isMore flags then parseZmqMessage buffer (next + size) dataSize
              else .ok (next + size, dataSize)
termination_by buffer.length - offset
decreasing_by
  have hoffset : offset ≤ buffer.length := by
    by_contra hout
    unfold readHeader remaining at _h
    rw [if_neg hout] at _h
    exact nomatch _h
  rw [readHeader_eq hoffset] at _h
  split at _h
  · exact nomatch _h
  · next length hheader =>
      obtain ⟨rfl, rfl, rfl⟩ := Except.ok.inj _h
      have hlength := header_length hheader
      rw [List.length_drop] at hlength
      omega

/-- One frame of a message, read from a place inside the buffer. -/
theorem parseZmqMessage_eq {buffer : List UInt8} {offset : ℕ} (hoffset : offset ≤ buffer.length)
    (dataSize : ℕ) : parseZmqMessage buffer offset dataSize =
      match header (buffer.drop offset) with
      | none => .error .incomplete
      | some (flags, size, length) =>
          if maxZmqMessage < size ∨ maxZmqMessage - size < dataSize then .error .tooLarge
          else if (buffer.drop offset).length < length + size then .error .incomplete
          else if isMore flags then parseZmqMessage buffer (offset + (length + size))
            (if isCommand flags then dataSize else dataSize + size)
          else .ok (offset + (length + size),
            if isCommand flags then dataSize else dataSize + size) := by
  rw [parseZmqMessage]
  have hread := readHeader_eq hoffset
  rcases hheader : header (buffer.drop offset) with _ | ⟨flags, size, length⟩
  · rw [hheader] at hread
    split
    · next heq =>
        obtain rfl := Except.error.inj (heq.symm.trans hread)
        rfl
    · next heq => exact nomatch heq.symm.trans hread
  · rw [hheader] at hread
    have hlength := header_length hheader
    rw [List.length_drop] at hlength
    split
    · next heq => exact nomatch heq.symm.trans hread
    · next heq =>
        obtain ⟨rfl, rfl, rfl⟩ := Except.ok.inj (heq.symm.trans hread)
        have hinside : offset + length ≤ buffer.length := by omega
        unfold remaining
        have hiff : buffer.length - (offset + length) < size ↔
            buffer.length - offset < length + size := by omega
        rw [if_pos hinside, List.length_drop]
        dsimp only
        simp only [hiff, Nat.add_assoc]

/-- Induction over the frames of a message that begins at an offset inside the buffer. -/
@[elab_as_elim]
theorem frames_induction {motive : ℕ → ℕ → Prop} (buffer : List UInt8)
    (frame : ∀ offset dataSize, (∀ flags size length, offset ≤ buffer.length →
      header (buffer.drop offset) = some (flags, size, length) →
      length + size ≤ (buffer.drop offset).length →
      motive (offset + (length + size)) (if isCommand flags then dataSize else dataSize + size)) →
      motive offset dataSize)
    (offset dataSize : ℕ) : motive offset dataSize := by
  induction hrest : buffer.length - offset using Nat.strongRecOn generalizing offset dataSize with
  | ind rest ih =>
      refine frame offset dataSize fun flags size length hoffset hheader hfits => ?_
      have hlength := header_length hheader
      rw [List.length_drop] at hlength hfits
      exact ih (buffer.length - (offset + (length + size))) (by omega) _ _ rfl

/-- No access leaves the buffer, and a message ends inside of it, behind its beginning. -/
theorem parseZmqMessage_inside {buffer : List UInt8} (offset dataSize : ℕ)
    (hoffset : offset ≤ buffer.length) :
    parseZmqMessage buffer offset dataSize ≠ .error .overrun ∧
      ∀ next sent, parseZmqMessage buffer offset dataSize = .ok (next, sent) →
        offset < next ∧ next ≤ buffer.length := by
  induction offset, dataSize using frames_induction buffer with
  | frame offset dataSize ih =>
      rw [parseZmqMessage_eq hoffset]
      rcases hheader : header (buffer.drop offset) with _ | ⟨flags, size, length⟩
      · exact ⟨fun h => (nomatch h), fun _ _ h => (nomatch h)⟩
      · have hlength := header_length hheader
        have hdrop : (buffer.drop offset).length = buffer.length - offset := List.length_drop
        dsimp only
        split
        · exact ⟨fun h => (nomatch h), fun _ _ h => (nomatch h)⟩
        split
        · exact ⟨fun h => (nomatch h), fun _ _ h => (nomatch h)⟩
        split
        · obtain ⟨hinside, hend⟩ := ih flags size length hoffset hheader (by omega) (by omega)
          refine ⟨hinside, fun next sent h => ?_⟩
          have hbehind := hend next sent h
          omega
        · refine ⟨fun h => (nomatch h), fun next sent h => ?_⟩
          obtain ⟨rfl, -⟩ := Prod.mk.inj (Except.ok.inj h)
          omega

theorem header_append {rest : List UInt8} {flags : UInt8} {size length : ℕ}
    (h : header rest = some (flags, size, length)) (more : List UInt8) :
    header (rest ++ more) = some (flags, size, length) := by
  unfold header at h ⊢
  split at h
  · next flags size rest =>
      rw [List.cons_append, List.cons_append]
      dsimp only
      split_ifs at h with hlong hshort
      · have hstill : ¬ (size :: (rest ++ more)).length < 8 := by
          rw [List.length_cons] at hshort ⊢
          rw [List.length_append]
          omega
        rw [if_pos hlong, if_neg hstill, ← List.cons_append,
          List.take_append_of_le_length (Nat.le_of_not_lt hshort)]
        exact h
      · rw [if_neg hlong]
        exact h
  · exact nomatch h

/-- Once the bytes say what comes, later ones do not change it. -/
theorem parseZmqMessage_append {buffer : List UInt8} (more : List UInt8) (offset dataSize : ℕ)
    (hoffset : offset ≤ buffer.length) :
    parseZmqMessage buffer offset dataSize ≠ .error .incomplete →
      parseZmqMessage (buffer ++ more) offset dataSize =
        parseZmqMessage buffer offset dataSize := by
  induction offset, dataSize using frames_induction buffer with
  | frame offset dataSize ih =>
      have hlonger : offset ≤ (buffer ++ more).length := by
        rw [List.length_append]
        omega
      intro h
      rw [parseZmqMessage_eq hoffset] at h ⊢
      rw [parseZmqMessage_eq hlonger, List.drop_append_of_le_length hoffset]
      rcases hheader : header (buffer.drop offset) with _ | ⟨flags, size, length⟩
      · rw [hheader] at h
        exact absurd rfl h
      · rw [hheader] at h
        rw [header_append hheader]
        dsimp only at h ⊢
        by_cases hlarge : maxZmqMessage < size ∨ maxZmqMessage - size < dataSize
        · rw [if_pos hlarge, if_pos hlarge]
        rw [if_neg hlarge] at h ⊢
        rw [if_neg hlarge]
        by_cases hshort : (buffer.drop offset).length < length + size
        · rw [if_pos hshort] at h
          exact absurd rfl h
        have hstill : ¬ (buffer.drop offset ++ more).length < length + size := by
          rw [List.length_append]
          omega
        rw [if_neg hshort] at h ⊢
        rw [if_neg hstill]
        by_cases hmore : isMore flags = true
        · rw [if_pos hmore] at h ⊢
          rw [if_pos hmore]
          have hdrop : (buffer.drop offset).length = buffer.length - offset := List.length_drop
          exact ih flags size length hoffset hheader (Nat.le_of_not_lt hshort) (by omega) h
        · rw [if_neg hmore, if_neg hmore]

end Messages

section Reading

inductive Phase where
  | greeting1
  | greeting2
  | handshake
  | connected
  deriving DecidableEq, Repr

/-- A closed connection is not read any more. -/
inductive Output where
  | wrote (data : List UInt8)
  | notified
  | closed
  | overrun
  deriving DecidableEq, Repr

structure State where
  phase : Phase := .greeting1
  writes : ℕ := 0
  notifications : ℕ := 0
  deriving DecidableEq, Repr

/-- Which writes go out as a whole, and which notifications leave the connection open. -/
structure Env where
  write : ℕ → Bool
  survives : ℕ → Bool

variable (env : Env)

/-- Takes `consumed` bytes from the buffer and writes in return. -/
def writeZmq (data : List UInt8) (consumed : ℕ) (phase : Phase) (s : State) :
    Advance State Output :=
  if env.write s.writes then
    .next { s with phase := phase, writes := s.writes + 1 } consumed [.wrote data]
  else .stop { s with writes := s.writes + 1 } [.closed]

/-- Goes on with what was read, if it was inside the buffer. -/
def inside {α : Type} (s : State) (access : Except Halt α) (next : α → Advance State Output) :
    Advance State Output :=
  match access with
  | .ok a => next a
  | .error _ => .stop s [.overrun]

def readGreeting1 (s : State) (buffer : List UInt8) : Advance State Output :=
  if buffer.length < zmqGreetingSize1 then .wait
  else
    inside s (byteAt buffer 0) fun signature => inside s (byteAt buffer 9) fun signatureEnd =>
      inside s (byteAt buffer 10) fun major =>
        if signature ≠ 255 ∨ signatureEnd ≠ 127 ∨ major ≠ 3 then .stop s [.closed]
        else writeZmq env (zmqGreeting.drop zmqGreetingSize1) 0 .greeting2 s

def readGreeting2 (s : State) (buffer : List UInt8) : Advance State Output :=
  if buffer.length < zmqGreeting.length then .wait
  else
    inside s (slice buffer 12 20) fun mechanism =>
      if mechanism ≠ (zmqGreeting.drop 12).take 20 then .stop s [.closed]
      else writeZmq env zmqHandshake zmqGreeting.length .handshake s

def readHandshake (s : State) (buffer : List UInt8) : Advance State Output :=
  if buffer.length < 2 then .wait
  else
    inside s (byteAt buffer 0) fun flags =>
      if flags ≠ 4 then .stop s [.closed]
      else
        inside s (byteAt buffer 1) fun size =>
          if size.toNat < 18 then .stop s [.closed]
          else if buffer.length < size.toNat + 2 then .wait
          else
            inside s (slice buffer 2 18) fun ready =>
              if ready ≠ (zmqHandshake.drop 2).take 18 then .stop s [.closed]
              else writeZmq env zmqSubscribe (size.toNat + 2) .connected s

def readMessage (s : State) (buffer : List UInt8) : Advance State Output :=
  match parseZmqMessage buffer 0 0 with
  | .error .incomplete => .wait
  | .error .tooLarge => .stop s [.closed]
  | .error .overrun => .stop s [.overrun]
  | .ok (offset, dataSize) =>
      if 0 < dataSize then
        let notified := { s with notifications := s.notifications + 1 }
        if env.survives s.notifications then .next notified offset [.notified]
        else .stop notified [.notified, .closed]
      else .next s offset []

def readZmqStep (s : State) (buffer : List UInt8) : Advance State Output :=
  match s.phase with
  | .greeting1 => readGreeting1 env s buffer
  | .greeting2 => readGreeting2 env s buffer
  | .handshake => readHandshake env s buffer
  | .connected => readMessage env s buffer

variable {env} {s s' : State} {buffer : List UInt8} {n : ℕ} {out : List Output}

theorem byteAt_eq {offset : ℕ} (h : offset < buffer.length) :
    byteAt buffer offset = .ok (buffer.getD offset 0) := by
  unfold byteAt
  rw [List.getD_eq_getElem?_getD, List.getElem?_eq_getElem h]
  rfl

theorem slice_eq {offset size : ℕ} (h : offset + size ≤ buffer.length) :
    slice buffer offset size = .ok ((buffer.drop offset).take size) := if_pos h

theorem getD_append {offset : ℕ} (h : offset < buffer.length) (more : List UInt8) :
    (buffer ++ more).getD offset 0 = buffer.getD offset 0 := List.getD_append _ _ _ _ h

theorem take_drop_append {offset size : ℕ} (h : offset + size ≤ buffer.length) (more : List UInt8) :
    ((buffer ++ more).drop offset).take size = (buffer.drop offset).take size := by
  rw [List.drop_append_of_le_length (by omega), List.take_append_of_le_length]
  rw [List.length_drop]
  omega

theorem readGreeting1_eq (h : ¬ buffer.length < zmqGreetingSize1) : readGreeting1 env s buffer =
    if buffer.getD 0 0 ≠ 255 ∨ buffer.getD 9 0 ≠ 127 ∨ buffer.getD 10 0 ≠ 3 then .stop s [.closed]
    else writeZmq env (zmqGreeting.drop zmqGreetingSize1) 0 .greeting2 s := by
  have hsize : zmqGreetingSize1 = 11 := rfl
  unfold readGreeting1
  rw [if_neg h, byteAt_eq (by omega), byteAt_eq (by omega), byteAt_eq (by omega)]
  rfl

theorem readGreeting2_eq (h : ¬ buffer.length < zmqGreeting.length) : readGreeting2 env s buffer =
    if (buffer.drop 12).take 20 ≠ (zmqGreeting.drop 12).take 20 then .stop s [.closed]
    else writeZmq env zmqHandshake zmqGreeting.length .handshake s := by
  have hsize : zmqGreeting.length = 64 := by decide
  unfold readGreeting2
  rw [if_neg h, slice_eq (by omega)]
  rfl

theorem readHandshake_eq (h : ¬ buffer.length < 2) : readHandshake env s buffer =
    if buffer.getD 0 0 ≠ 4 ∨ (buffer.getD 1 0).toNat < 18 then .stop s [.closed]
    else if buffer.length < (buffer.getD 1 0).toNat + 2 then .wait
    else if (buffer.drop 2).take 18 ≠ (zmqHandshake.drop 2).take 18 then .stop s [.closed]
    else writeZmq env zmqSubscribe ((buffer.getD 1 0).toNat + 2) .connected s := by
  unfold readHandshake
  rw [if_neg h, byteAt_eq (by omega), byteAt_eq (by omega)]
  dsimp only [inside]
  by_cases hflags : buffer.getD 0 0 ≠ 4
  · rw [if_pos hflags, if_pos (Or.inl hflags)]
  rw [if_neg hflags]
  by_cases hsmall : (buffer.getD 1 0).toNat < 18
  · rw [if_pos hsmall, if_pos (Or.inr hsmall)]
  have hvalid : ¬ (buffer.getD 0 0 ≠ 4 ∨ (buffer.getD 1 0).toNat < 18) :=
    not_or.mpr ⟨hflags, hsmall⟩
  rw [if_neg hsmall, if_neg hvalid]
  by_cases hshort : buffer.length < (buffer.getD 1 0).toNat + 2
  · rw [if_pos hshort, if_pos hshort]
  rw [if_neg hshort, if_neg hshort, slice_eq (by omega)]

theorem writeZmq_next {data : List UInt8} {consumed : ℕ} {phase : Phase}
    (h : writeZmq env data consumed phase s = .next s' n out) :
    n = consumed ∧ s'.phase = phase := by
  unfold writeZmq at h
  split at h
  · obtain ⟨rfl, rfl, -⟩ := Advance.next.inj h
    exact ⟨rfl, rfl⟩
  · exact nomatch h

theorem writeZmq_ne_wait (data : List UInt8) (consumed : ℕ) (phase : Phase) (s : State) :
    writeZmq env data consumed phase s ≠ .wait := by
  unfold writeZmq
  split <;> exact fun h => nomatch h

/-- The steps of each phase that take bytes, and what they leave to the next phase. -/
theorem readZmqStep_next (h : readZmqStep env s buffer = .next s' n out) :
    (s.phase = .greeting1 ∧ s'.phase = .greeting2 ∧ n = 0) ∨
    (s.phase = .greeting2 ∧ s'.phase = .handshake ∧ n = 64 ∧ 64 ≤ buffer.length) ∨
    (s.phase = .handshake ∧ s'.phase = .connected ∧ n = (buffer.getD 1 0).toNat + 2 ∧
      n ≤ buffer.length) ∨
    (s.phase = .connected ∧ s'.phase = .connected ∧
      ∃ dataSize, parseZmqMessage buffer 0 0 = .ok (n, dataSize)) := by
  unfold readZmqStep at h
  rcases hphase : s.phase with _ | _ | _ | _
  · rw [hphase] at h
    dsimp only at h
    by_cases hshort : buffer.length < zmqGreetingSize1
    · unfold readGreeting1 at h
      rw [if_pos hshort] at h
      exact nomatch h
    rw [readGreeting1_eq hshort] at h
    split at h
    · exact nomatch h
    · obtain ⟨rfl, hnext⟩ := writeZmq_next h
      exact Or.inl ⟨rfl, hnext, rfl⟩
  · rw [hphase] at h
    dsimp only at h
    by_cases hshort : buffer.length < zmqGreeting.length
    · unfold readGreeting2 at h
      rw [if_pos hshort] at h
      exact nomatch h
    rw [readGreeting2_eq hshort] at h
    split at h
    · exact nomatch h
    · obtain ⟨rfl, hnext⟩ := writeZmq_next h
      have hsize : zmqGreeting.length = 64 := by decide
      exact Or.inr (Or.inl ⟨rfl, hnext, hsize, by omega⟩)
  · rw [hphase] at h
    dsimp only at h
    by_cases hshort : buffer.length < 2
    · unfold readHandshake at h
      rw [if_pos hshort] at h
      exact nomatch h
    rw [readHandshake_eq hshort] at h
    split at h
    · exact nomatch h
    split at h
    · exact nomatch h
    · next hlong =>
        split at h
        · exact nomatch h
        · obtain ⟨rfl, hnext⟩ := writeZmq_next h
          exact Or.inr (Or.inr (Or.inl ⟨rfl, hnext, rfl, by omega⟩))
  · rw [hphase] at h
    dsimp only [readMessage] at h
    split at h
    · exact nomatch h
    · exact nomatch h
    · exact nomatch h
    · next offset dataSize hparse =>
        split at h
        · split at h
          · obtain ⟨rfl, rfl, -⟩ := Advance.next.inj h
            exact Or.inr (Or.inr (Or.inr ⟨rfl, hphase, dataSize, hparse⟩))
          · exact nomatch h
        · obtain ⟨rfl, rfl, -⟩ := Advance.next.inj h
          exact Or.inr (Or.inr (Or.inr ⟨rfl, hphase, dataSize, hparse⟩))

theorem readZmqStep_append (more : List UInt8) (h : readZmqStep env s buffer ≠ .wait) :
    readZmqStep env s (buffer ++ more) = readZmqStep env s buffer := by
  have hlonger : buffer.length ≤ (buffer ++ more).length := by
    rw [List.length_append]
    exact Nat.le_add_right _ _
  unfold readZmqStep at h ⊢
  rcases hphase : s.phase with _ | _ | _ | _
  · rw [hphase] at h
    dsimp only at h ⊢
    have hsize : zmqGreetingSize1 = 11 := rfl
    have hshort : ¬ buffer.length < zmqGreetingSize1 := fun hshort => h (if_pos hshort)
    rw [readGreeting1_eq hshort, readGreeting1_eq (by omega), getD_append (by omega),
      getD_append (by omega), getD_append (by omega)]
  · rw [hphase] at h
    dsimp only at h ⊢
    have hsize : zmqGreeting.length = 64 := by decide
    have hshort : ¬ buffer.length < zmqGreeting.length := fun hshort => h (if_pos hshort)
    rw [readGreeting2_eq hshort, readGreeting2_eq (by omega), take_drop_append (by omega)]
  · rw [hphase] at h
    dsimp only at h ⊢
    have hshort : ¬ buffer.length < 2 := fun hshort => h (if_pos hshort)
    rw [readHandshake_eq hshort] at h ⊢
    rw [readHandshake_eq (by omega), getD_append (by omega), getD_append (by omega)]
    by_cases hinvalid : buffer.getD 0 0 ≠ 4 ∨ (buffer.getD 1 0).toNat < 18
    · rw [if_pos hinvalid, if_pos hinvalid]
    rw [if_neg hinvalid] at h ⊢
    rw [if_neg hinvalid]
    have hready : ¬ buffer.length < (buffer.getD 1 0).toNat + 2 := fun hready => h (if_pos hready)
    rw [if_neg hready, if_neg (by omega), take_drop_append (by omega)]
  · rw [hphase] at h
    dsimp only [readMessage] at h ⊢
    have hcomplete : parseZmqMessage buffer 0 0 ≠ .error .incomplete := by
      intro hincomplete
      rw [hincomplete] at h
      exact h rfl
    rw [parseZmqMessage_append more 0 0 (Nat.zero_le _) hcomplete]

/-- The loop of `readZmq` over the buffer. -/
def readZmq (env : Env) : Parser State UInt8 Output where
  step := readZmqStep env
  rank := fun s => if s.phase = .greeting1 then 1 else 0
  decreases := by
    intro s buffer s' n out h
    rcases readZmqStep_next h with ⟨hphase, hnext, rfl⟩ | ⟨-, -, rfl, hlong⟩ |
      ⟨-, -, rfl, hlong⟩ | ⟨-, -, dataSize, hparse⟩
    · refine ⟨Nat.zero_le _, Or.inr ?_⟩
      rw [hphase, hnext]
      decide
    · exact ⟨hlong, Or.inl (by decide)⟩
    · exact ⟨hlong, Or.inl (Nat.succ_pos _)⟩
    · have hinside := (parseZmqMessage_inside 0 0 (Nat.zero_le _)).2 n dataSize hparse
      exact ⟨hinside.2, Or.inl hinside.1⟩
  stable := fun more h => readZmqStep_append more h

/-- A connection whose greeting was begun. -/
def opened : Progress State UInt8 := ⟨{}, [], false⟩

theorem settled_opened (env : Env) : (readZmq env).Settled opened := Or.inr rfl

theorem overrun_writeZmq (data : List UInt8) (consumed : ℕ) (phase : Phase) (s : State) :
    Output.overrun ∉ (writeZmq env data consumed phase s).out := by
  unfold writeZmq
  split <;> simp [Advance.out]

/-- No step reads outside the buffer. -/
theorem overrun_readZmqStep (s : State) (buffer : List UInt8) :
    Output.overrun ∉ (readZmqStep env s buffer).out := by
  have hclose : Output.overrun ∉ (Advance.stop s [Output.closed]).out := by
    simp [Advance.out]
  have hwait : Output.overrun ∉ (Advance.wait : Advance State Output).out := List.not_mem_nil
  unfold readZmqStep
  rcases s.phase with _ | _ | _ | _
  · dsimp only
    by_cases hshort : buffer.length < zmqGreetingSize1
    · unfold readGreeting1
      rw [if_pos hshort]
      exact hwait
    rw [readGreeting1_eq hshort]
    split
    · exact hclose
    · exact overrun_writeZmq _ _ _ s
  · dsimp only
    by_cases hshort : buffer.length < zmqGreeting.length
    · unfold readGreeting2
      rw [if_pos hshort]
      exact hwait
    rw [readGreeting2_eq hshort]
    split
    · exact hclose
    · exact overrun_writeZmq _ _ _ s
  · dsimp only
    by_cases hshort : buffer.length < 2
    · unfold readHandshake
      rw [if_pos hshort]
      exact hwait
    rw [readHandshake_eq hshort]
    split
    · exact hclose
    split
    · exact hwait
    split
    · exact hclose
    · exact overrun_writeZmq _ _ _ s
  · dsimp only [readMessage]
    have hinside := (@parseZmqMessage_inside buffer 0 0 (Nat.zero_le _)).1
    split
    · exact hwait
    · exact hclose
    · next hparse => exact absurd hparse hinside
    · split
      · split <;> simp [Advance.out]
      · exact List.not_mem_nil

end Reading

end ZmqStream

end XmrigProxy
