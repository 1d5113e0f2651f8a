import XmrigProxy.ZmqMessages

/-! The answers of `readZmq` to a stream, from the greeting to the last message. -/
namespace XmrigProxy

namespace ZmqStream

section Handshake

/-- What the READY command of a daemon begins with: its name and the property it gives. -/
def readyCommand : List UInt8 := [5] ++ bytes "READY" ++ [11] ++ bytes "Socket-Type"

/-- The part of the handshake with this number is there, and it is what the protocol says: the
signature and the version, the mechanism, and the READY command. -/
def Valid : ℕ → List UInt8 → Prop
  | 0, given => given[0]? = some 255 ∧ given[9]? = some 127 ∧ given[10]? = some 3
  | 1, given => 64 ≤ given.length ∧
      (given.drop 12).take 20 = bytes "NULL" ++ List.replicate 16 0
  | 2, given => ∃ size rest, given.drop 64 = 4 :: size :: rest ∧ 18 ≤ size.toNat ∧
      size.toNat ≤ rest.length ∧ readyCommand <+: rest
  | _, _ => False

/-- Enough of the part is there to tell that it is something else. -/
def Refused : ℕ → List UInt8 → Prop
  | 0, given => 11 ≤ given.length ∧ ¬ Valid 0 given
  | 1, given => 64 ≤ given.length ∧ ¬ Valid 1 given
  | 2, given => ∃ flags size rest, given.drop 64 = flags :: size :: rest ∧
      (flags ≠ 4 ∨ size.toNat < 18 ∨ size.toNat ≤ rest.length ∧ ¬ readyCommand <+: rest)
  | _, _ => False

/-- The writes that answer the parts of the handshake. -/
def answers : List (List UInt8) :=
  [zmqGreeting.drop zmqGreetingSize1, zmqHandshake, zmqSubscribe]

/-- A part that was answered. -/
def Passed (env : Env) (given : List UInt8) (part : ℕ) : Prop :=
  Valid part given ∧ env.write part = true

variable {env : Env} {s : State} {given buffer : List UInt8}

theorem valid_lt {part : ℕ} (h : Valid part given) : part < 3 := by
  rcases part with _ | _ | _ | part
  · decide
  · decide
  · decide
  · exact h.elim

theorem getElem?_getD {offset : ℕ} (h : offset < given.length) (b : UInt8) :
    given[offset]? = some b ↔ given.getD offset 0 = b := by
  rw [List.getD_eq_getElem?_getD, List.getElem?_eq_getElem h]
  exact Option.some_inj

theorem refused_not_valid {part : ℕ} (h : Refused part given) : ¬ Valid part given := by
  rcases part with _ | _ | _ | part
  · exact h.2
  · exact h.2
  · obtain ⟨flags, size, rest, hdrop, hwrong⟩ := h
    rintro ⟨size', rest', hdrop', hlarge, hthere, hready⟩
    obtain ⟨rfl, hcons⟩ := List.cons.inj (hdrop.symm.trans hdrop')
    obtain ⟨rfl, rfl⟩ := List.cons.inj hcons
    rcases hwrong with hflags | hsmall | ⟨-, hother⟩
    · exact hflags rfl
    · omega
    · exact hother hready
  · exact h.elim

theorem greeting1_step (hphase : s.phase = .greeting1) :
    (Valid 0 given → (readZmq env).step s given =
      writeZmq env (zmqGreeting.drop zmqGreetingSize1) 0 .greeting2 s) ∧
    (Refused 0 given → (readZmq env).step s given = .stop s [.closed]) ∧
    (¬ Valid 0 given → ¬ Refused 0 given → (readZmq env).step s given = .wait) := by
  have hstep : (readZmq env).step s given = readGreeting1 env s given := by
    change readZmqStep env s given = _
    unfold readZmqStep
    rw [hphase]
  have hsize : zmqGreetingSize1 = 11 := rfl
  rw [hstep]
  by_cases hshort : given.length < zmqGreetingSize1
  · refine ⟨fun h => ?_, fun h => absurd h.1 (by omega), fun _ _ => if_pos hshort⟩
    have hthere := (List.getElem?_eq_some_iff.mp h.2.2).1
    omega
  · have hiff : Valid 0 given ↔
        ¬ (given.getD 0 0 ≠ 255 ∨ given.getD 9 0 ≠ 127 ∨ given.getD 10 0 ≠ 3) := by
      change (given[0]? = some 255 ∧ given[9]? = some 127 ∧ given[10]? = some 3) ↔ _
      rw [getElem?_getD (by omega), getElem?_getD (by omega), getElem?_getD (by omega), not_or,
        not_or, not_not, not_not, not_not]
    rw [readGreeting1_eq hshort]
    refine ⟨fun h => if_neg (hiff.mp h), fun h => if_pos (not_not.mp fun hok => h.2 (hiff.mpr hok)),
      fun hinvalid hopen => absurd ⟨by omega, hinvalid⟩ hopen⟩

theorem greeting2_step (hphase : s.phase = .greeting2) :
    (Valid 1 given → (readZmq env).step s given =
      writeZmq env zmqHandshake zmqGreeting.length .handshake s) ∧
    (Refused 1 given → (readZmq env).step s given = .stop s [.closed]) ∧
    (¬ Valid 1 given → ¬ Refused 1 given → (readZmq env).step s given = .wait) := by
  have hstep : (readZmq env).step s given = readGreeting2 env s given := by
    change readZmqStep env s given = _
    unfold readZmqStep
    rw [hphase]
  have hsize : zmqGreeting.length = 64 := by decide
  have hmechanism : (zmqGreeting.drop 12).take 20 = bytes "NULL" ++ List.replicate 16 0 := by
    decide
  rw [hstep]
  by_cases hshort : given.length < zmqGreeting.length
  · exact ⟨fun h => absurd h.1 (by omega), fun h => absurd h.1 (by omega),
      fun _ _ => if_pos hshort⟩
  · rw [readGreeting2_eq hshort, hmechanism]
    refine ⟨fun h => if_neg (not_not.mpr h.2), fun h => if_pos fun hok => h.2 ⟨h.1, hok⟩,
      fun hinvalid hopen => absurd ⟨by omega, hinvalid⟩ hopen⟩

theorem exists_command (hlong : ¬ (given.drop 64).length < 2) :
    ∃ flags size rest, given.drop 64 = flags :: size :: rest := by
  rcases hbuffer : given.drop 64 with _ | ⟨flags, _ | ⟨size, rest⟩⟩
  · rw [hbuffer] at hlong
    exact absurd (by decide) hlong
  · rw [hbuffer] at hlong
    exact absurd (Nat.lt_succ_self 1) hlong
  · exact ⟨flags, size, rest, rfl⟩

theorem readyCommand_prefix_iff {rest : List UInt8} :
    readyCommand <+: rest ↔ rest.take 18 = readyCommand := by
  have hlength : readyCommand.length = 18 := by decide
  rw [List.prefix_iff_eq_take, hlength, eq_comm]

theorem valid_command_iff {flags size : UInt8} {rest : List UInt8}
    (hrest : given.drop 64 = flags :: size :: rest) :
    Valid 2 given ↔ flags = 4 ∧ 18 ≤ size.toNat ∧ size.toNat ≤ rest.length ∧
      rest.take 18 = readyCommand := by
  rw [← readyCommand_prefix_iff]
  constructor
  · rintro ⟨size', rest', hrest', hvalid⟩
    obtain ⟨rfl, hcons⟩ := List.cons.inj (hrest.symm.trans hrest')
    obtain ⟨rfl, rfl⟩ := List.cons.inj hcons
    exact ⟨rfl, hvalid⟩
  · rintro ⟨rfl, hvalid⟩
    exact ⟨size, rest, hrest, hvalid⟩

theorem refused_command_iff {flags size : UInt8} {rest : List UInt8}
    (hrest : given.drop 64 = flags :: size :: rest) :
    Refused 2 given ↔ flags ≠ 4 ∨ size.toNat < 18 ∨
      size.toNat ≤ rest.length ∧ ¬ rest.take 18 = readyCommand := by
  rw [← readyCommand_prefix_iff]
  constructor
  · rintro ⟨flags', size', rest', hrest', hrefused⟩
    obtain ⟨rfl, hcons⟩ := List.cons.inj (hrest.symm.trans hrest')
    obtain ⟨rfl, rfl⟩ := List.cons.inj hcons
    exact hrefused
  · exact fun hrefused => ⟨flags, size, rest, hrest, hrefused⟩

theorem handshake_step (hphase : s.phase = .handshake) :
    (Valid 2 given → (readZmq env).step s (given.drop 64) =
      writeZmq env zmqSubscribe (((given.drop 64).getD 1 0).toNat + 2) .connected s) ∧
    (Refused 2 given → (readZmq env).step s (given.drop 64) = .stop s [.closed]) ∧
    (¬ Valid 2 given → ¬ Refused 2 given → (readZmq env).step s (given.drop 64) = .wait) := by
  have hstep : (readZmq env).step s (given.drop 64) = readHandshake env s (given.drop 64) := by
    change readZmqStep env s _ = _
    unfold readZmqStep
    rw [hphase]
  have hready : (zmqHandshake.drop 2).take 18 = readyCommand := by decide
  rw [hstep]
  by_cases hshort : (given.drop 64).length < 2
  · refine ⟨fun ⟨size, rest, h, _⟩ => ?_, fun ⟨flags, size, rest, h, _⟩ => ?_,
      fun _ _ => if_pos hshort⟩
    · rw [h] at hshort
      exact absurd hshort (by simp)
    · rw [h] at hshort
      exact absurd hshort (by simp)
  rw [readHandshake_eq hshort, hready]
  obtain ⟨flags, size, rest, hrest⟩ := exists_command hshort
  have hflags : (flags :: size :: rest).getD 0 0 = flags := rfl
  have hsize : (flags :: size :: rest).getD 1 0 = size := rfl
  have hbehind : (flags :: size :: rest).drop 2 = rest := rfl
  have hall : (flags :: size :: rest).length = rest.length + 2 := rfl
  rw [valid_command_iff hrest, refused_command_iff hrest, hrest, hflags, hsize, hbehind, hall]
  refine ⟨?_, ?_, ?_⟩
  · rintro ⟨rfl, hlarge, hthere, hcommand⟩
    rw [if_neg (by simpa using hlarge), if_neg (by omega), if_neg (not_not.mpr hcommand)]
  · rintro (hother | hsmall | ⟨hthere, hcommand⟩)
    · exact if_pos (Or.inl hother)
    · exact if_pos (Or.inr hsmall)
    · by_cases hwrong : flags ≠ 4 ∨ size.toNat < 18
      · exact if_pos hwrong
      · rw [if_neg hwrong, if_neg (by omega), if_pos hcommand]
  · intro hinvalid hopen
    obtain ⟨hfour, hlarge, hcommand⟩ : flags = 4 ∧ 18 ≤ size.toNat ∧
        (size.toNat ≤ rest.length → rest.take 18 = readyCommand) := by
      simpa only [not_or, not_and, not_not, not_lt, ne_eq] using hopen
    have hshort : rest.length < size.toNat := by
      by_contra hthere
      exact hinvalid ⟨hfour, hlarge, by omega, hcommand (by omega)⟩
    rw [if_neg (not_or.mpr ⟨not_not.mpr hfour, by omega⟩), if_pos (by omega)]

end Handshake

section Answers

variable {env : Env} {s s' : State} {given buffer : List UInt8} {n : ℕ} {out : List Output}

/-- What comes after the READY command in front. -/
def afterReady (buffer : List UInt8) : List UInt8 := buffer.drop ((buffer.getD 1 0).toNat + 2)

/-- The messages behind the handshake of a stream. -/
def carried (given : List UInt8) : Scanned := scan {} (afterReady (given.drop 64))

/-- The bytes of an unfinished message at the end of a stream that are headers and commands. -/
def overhead (given : List UInt8) : ℕ := (carried given).unfinished.overhead

/-- All that a stream is answered with. The parts of the handshake are answered in turn, as long as
they are valid and the writes succeed. Then each complete message with data is notified, as long as
the notifications leave the connection open. The connection is closed by a part that is refused or
cannot be answered, by a notification, or by a message that is too large. -/
structure Answered (env : Env) (given : List UInt8) (r : Progress State UInt8) (out : List Output)
    (parts notifications : ℕ) : Prop where
  out : out = (answers.take parts).map .wrote ++
    (List.replicate notifications .notified ++ if r.stopped then [.closed] else [])
  written : ∀ part, part < parts ↔ ∀ i ≤ part, Passed env given i
  notified : ∀ j, j < notifications ↔
    parts = 3 ∧ j < (carried given).notable ∧ ∀ i < j, env.survives i = true
  closed : r.stopped = true ↔
    (∃ part, (∀ i < part, Passed env given i) ∧
      (Refused part given ∨ Valid part given ∧ env.write part = false)) ∨
    parts = 3 ∧ ((∃ j < (carried given).notable, env.survives j = false) ∨
      (carried given).tooLarge = true)

/-- The parts in front of the first one that was not answered are the answered ones. -/
theorem written_iff {part : ℕ} (hpassed : ∀ i < part, Passed env given i)
    (hnot : ¬ Passed env given part) (j : ℕ) : j < part ↔ ∀ i ≤ j, Passed env given i := by
  constructor
  · exact fun hj i hi => hpassed i (by omega)
  · intro hall
    by_contra hlater
    exact hnot (hall part (by omega))

/-- The conversation ends, or waits, in the handshake. -/
theorem answered_handshake {part : ℕ} {r : Progress State UInt8} (hpart : part < 3)
    (hpassed : ∀ i < part, Passed env given i) (hnot : ¬ Passed env given part)
    (hout : out = if r.stopped then [.closed] else [])
    (hclosed : r.stopped = true ↔
      Refused part given ∨ Valid part given ∧ env.write part = false) :
    Answered env given r ((answers.take part).map .wrote ++ out) part 0 := by
  have hbefore : part ≠ 3 := Nat.ne_of_lt hpart
  constructor
  · rw [hout]
    rfl
  · exact written_iff hpassed hnot
  · exact fun j => ⟨fun h => absurd h (Nat.not_lt_zero j), fun h => absurd h.1 hbefore⟩
  · rw [hclosed]
    constructor
    · exact fun h => Or.inl ⟨part, hpassed, h⟩
    · rintro (⟨other, hothers, hends⟩ | ⟨hall, -⟩)
      · have hwrong : ¬ Passed env given other := by
          rcases hends with hrefused | ⟨-, hfails⟩
          · exact fun h => refused_not_valid hrefused h.1
          · exact fun h => absurd (hfails.symm.trans h.2) Bool.false_ne_true
        rcases Nat.lt_trichotomy other part with hless | rfl | hgreater
        · exact absurd (hpassed other hless) hwrong
        · exact hends
        · exact absurd (hothers part hgreater) hnot
      · exact absurd hall hbefore

/-- The handshake is over, and the messages are answered. -/
theorem answered_messages {notified : ℕ} {r : Progress State UInt8}
    (hpassed : ∀ i < 3, Passed env given i)
    (h : Delivered env 0 (carried given) r out notified) :
    Answered env given r ((answers.take 3).map .wrote ++ out) 3 notified := by
  have hlast : ¬ Passed env given 3 := fun h => h.1
  constructor
  · rw [h.out]
  · exact written_iff hpassed hlast
  · intro j
    rw [h.notified]
    simp only [Nat.zero_add, true_and]
  · rw [h.closed]
    simp only [Nat.zero_add, true_and]
    constructor
    · exact Or.inr
    · rintro (⟨part, hparts, hends⟩ | h)
      · exfalso
        have hthree : part < 3 := by
          rcases hends with hrefused | ⟨hvalid, -⟩
          · rcases part with _ | _ | _ | part
            · decide
            · decide
            · decide
            · exact hrefused.elim
          · exact valid_lt hvalid
        rcases hends with hrefused | ⟨-, hfails⟩
        · exact refused_not_valid hrefused (hpassed part hthree).1
        · exact absurd (hfails.symm.trans (hpassed part hthree).2) Bool.false_ne_true
      · exact h

/-- One part of the handshake: it is answered and the next one is read, or the reading ends. -/
theorem answered_part {part : ℕ} {data : List UInt8} {phase : Phase} (hpart : part < 3)
    (hdata : answers[part]? = some data) (hwrites : s.writes = part)
    (hpassed : ∀ i < part, Passed env given i)
    (hstep : (Valid part given → (readZmq env).step s buffer = writeZmq env data n phase s) ∧
      (Refused part given → (readZmq env).step s buffer = .stop s [.closed]) ∧
      (¬ Valid part given → ¬ Refused part given → (readZmq env).step s buffer = .wait))
    (hnext : Valid part given → (∀ i < part + 1, Passed env given i) → ∃ parts notifications,
      Answered env given
        ((readZmq env).run { s with phase := phase, writes := part + 1 } (buffer.drop n)).1
        ((answers.take (part + 1)).map .wrote ++
          ((readZmq env).run { s with phase := phase, writes := part + 1 } (buffer.drop n)).2)
        parts notifications) :
    ∃ parts notifications, Answered env given ((readZmq env).run s buffer).1
      ((answers.take part).map .wrote ++ ((readZmq env).run s buffer).2) parts notifications := by
  obtain ⟨hanswer, hrefuse, hwait⟩ := hstep
  by_cases hvalid : Valid part given
  · have hanswered := hanswer hvalid
    unfold writeZmq at hanswered
    rw [hwrites] at hanswered
    by_cases hwritten : env.write part = true
    · rw [if_pos hwritten] at hanswered
      have hpassed' : ∀ i < part + 1, Passed env given i := by
        intro i hi
        rcases Nat.lt_or_ge i part with hless | hge
        · exact hpassed i hless
        · obtain rfl : i = part := by omega
          exact ⟨hvalid, hwritten⟩
      obtain ⟨parts, notifications, hrest⟩ := hnext hvalid hpassed'
      refine ⟨parts, notifications, ?_⟩
      rw [Parser.run_next hanswered]
      rw [List.take_add_one, hdata, Option.toList_some, List.map_append, List.append_assoc] at hrest
      exact hrest
    · rw [if_neg hwritten] at hanswered
      refine ⟨part, 0, ?_⟩
      rw [Parser.run_stop hanswered]
      exact answered_handshake hpart hpassed (fun h => hwritten h.2) rfl
        ⟨fun _ => Or.inr ⟨hvalid, Bool.eq_false_of_not_eq_true hwritten⟩, fun _ => rfl⟩
  · by_cases hrefused : Refused part given
    · refine ⟨part, 0, ?_⟩
      rw [Parser.run_stop (hrefuse hrefused)]
      exact answered_handshake hpart hpassed (fun h => hvalid h.1) rfl
        ⟨fun _ => Or.inl hrefused, fun _ => rfl⟩
    · refine ⟨part, 0, ?_⟩
      rw [Parser.run_wait (hwait hvalid hrefused)]
      exact answered_handshake hpart hpassed (fun h => hvalid h.1) rfl
        ⟨fun h => (nomatch h), fun h => (h.elim hrefused fun h => hvalid h.1).elim⟩

theorem answered_run (env : Env) (given : List UInt8) : ∃ parts notifications,
    Answered env given ((readZmq env).run {} given).1 ((readZmq env).run {} given).2
      parts notifications := by
  refine @answered_part env {} given given 0 0 _ _ (by decide) rfl rfl
    (fun i hi => absurd hi (Nat.not_lt_zero i)) (greeting1_step rfl) fun _ hone => ?_
  rw [List.drop_zero]
  refine answered_part (by decide) rfl rfl hone (greeting2_step rfl) fun _ htwo => ?_
  have hgreeting : zmqGreeting.length = 64 := by decide
  rw [hgreeting]
  refine answered_part (by decide) rfl rfl htwo (handshake_step rfl) fun _ hthree => ?_
  obtain ⟨notified, hmessages⟩ := @delivered_run env ⟨.connected, 3, 0⟩ (afterReady (given.drop 64))
    rfl
  exact ⟨3, notified, answered_messages hthree hmessages⟩

end Answers

section Retained

variable {env : Env} {s s' : State} {buffer : List UInt8} {n : ℕ} {out : List Output}

/-- The bytes of messages in a buffer whose reading is in the given phase. -/
def body (phase : Phase) (buffer : List UInt8) : List UInt8 :=
  match phase with
  | .greeting1 => afterReady (buffer.drop 64)
  | .greeting2 => afterReady (buffer.drop 64)
  | .handshake => afterReady buffer
  | .connected => buffer

theorem afterReady_short (h : buffer.length < (buffer.getD 1 0).toNat + 2) :
    afterReady buffer = [] :=
  List.drop_eq_nil_of_le (Nat.le_of_lt h)

/-- A phase waits for few bytes, or for the rest of a message. -/
theorem readZmqStep_wait (h : readZmqStep env s buffer = .wait) :
    buffer.length ≤ (scan {} (body s.phase buffer)).unfinished.overhead + maxZmqMessage + 9 := by
  have hmax : maxZmqMessage = 65536 := rfl
  unfold readZmqStep at h
  rcases hphase : s.phase with _ | _ | _ | _
  · rw [hphase] at h
    dsimp only at h
    by_cases hshort : buffer.length < zmqGreetingSize1
    · have hsize : zmqGreetingSize1 = 11 := rfl
      have hnone : body .greeting1 buffer = [] := by
        unfold body
        rw [List.drop_eq_nil_of_le (by omega)]
        rfl
      rw [hnone, scan_nil]
      omega
    · rw [readGreeting1_eq hshort] at h
      split at h
      · exact nomatch h
      · exact absurd h (writeZmq_ne_wait _ _ _ _)
  · rw [hphase] at h
    dsimp only at h
    by_cases hshort : buffer.length < zmqGreeting.length
    · have hsize : zmqGreeting.length = 64 := by decide
      have hnone : body .greeting2 buffer = [] := by
        unfold body
        rw [List.drop_eq_nil_of_le (by omega)]
        rfl
      rw [hnone, scan_nil]
      omega
    · rw [readGreeting2_eq hshort] at h
      split at h
      · exact nomatch h
      · exact absurd h (writeZmq_ne_wait _ _ _ _)
  · rw [hphase] at h
    dsimp only at h
    have hready : buffer.length < (buffer.getD 1 0).toNat + 2 := by
      by_cases hshort : buffer.length < 2
      · omega
      · rw [readHandshake_eq hshort] at h
        split at h
        · exact nomatch h
        split at h
        · next hready => exact hready
        split at h
        · exact nomatch h
        · exact absurd h (writeZmq_ne_wait _ _ _ _)
    have hbyte := (buffer.getD 1 0).toNat_lt
    have hnone : body .handshake buffer = [] := afterReady_short hready
    rw [hnone, scan_nil]
    omega
  · rw [hphase] at h
    dsimp only [readMessage] at h
    split at h
    · next hparse =>
        exact (scan_of_incomplete 0 0 (Nat.zero_le _) (Nat.zero_le _) 0 hparse).2.2
    · exact nomatch h
    · exact nomatch h
    · split at h
      · split at h <;> exact nomatch h
      · exact nomatch h

/-- What is unfinished at the end of a run is unfinished at the end of the stream. -/
theorem pending_run (s : State) (buffer : List UInt8) :
    ((readZmq env).run s buffer).1.stopped = false →
      (scan {} (body ((readZmq env).run s buffer).1.state.phase
        ((readZmq env).run s buffer).1.buffer)).unfinished =
      (scan {} (body s.phase buffer)).unfinished := by
  induction s, buffer using Parser.run_induction (p := readZmq env) with
  | wait s buffer h =>
      rw [Parser.run_wait h]
      exact fun _ => rfl
  | next s buffer s' n out h ih =>
      rw [Parser.run_next h]
      intro hopen
      rw [ih hopen]
      -- In the handshake the messages stay the same, and then one of them is taken.
      rcases readZmqStep_next h with ⟨hphase, hnext, rfl⟩ | ⟨hphase, hnext, rfl, -⟩ |
        ⟨hphase, hnext, rfl, -⟩ | ⟨hphase, hnext, dataSize, hparse⟩
      · rw [hphase, hnext]
        rfl
      · rw [hphase, hnext]
        rfl
      · rw [hphase, hnext]
        rfl
      · have hscan : scan {} buffer = (scan {} (buffer.drop n)).cons dataSize :=
          scan_of_complete 0 0 (Nat.zero_le _) 0 hparse
        rw [hphase, hnext]
        dsimp only [body]
        rw [hscan]
        rfl
  | stop s buffer s' out h =>
      rw [Parser.run_stop h]
      exact fun hopen => nomatch hopen

theorem reads_opened (chunks : List (List UInt8)) :
    (readZmq env).reads chunks opened = (readZmq env).run {} chunks.flatten := by
  rw [Parser.reads_eq (settled_opened env)]
  rfl

theorem body_length (phase : Phase) (buffer : List UInt8) :
    (body phase buffer).length ≤ buffer.length := by
  unfold body afterReady
  cases phase <;> simp only [List.length_drop] <;> omega

/-- What is kept between two reads is the overhead, and little more. -/
theorem retained_bounds (env : Env) (chunks : List (List UInt8))
    (hopen : ((readZmq env).reads chunks opened).1.stopped = false) :
    overhead chunks.flatten ≤ ((readZmq env).reads chunks opened).1.buffer.length ∧
      ((readZmq env).reads chunks opened).1.buffer.length ≤
        overhead chunks.flatten + maxZmqMessage + 9 := by
  have hsettled := Parser.settled_run (p := readZmq env) {} chunks.flatten
  rw [reads_opened] at hopen ⊢
  have hpending := pending_run {} chunks.flatten hopen
  have hwait : readZmqStep env _ _ = .wait := hsettled.resolve_left (by rw [hopen]; decide)
  have hbound := readZmqStep_wait hwait
  have hbody := body_length ((readZmq env).run {} chunks.flatten).1.state.phase
    ((readZmq env).run {} chunks.flatten).1.buffer
  have hoverhead := scan_overhead_le {} (body ((readZmq env).run {} chunks.flatten).1.state.phase
    ((readZmq env).run {} chunks.flatten).1.buffer)
  have hzero : ({} : Unfinished).overhead = 0 := rfl
  rw [hpending] at hbound hoverhead
  change _ ≤ overhead chunks.flatten + maxZmqMessage + 9 at hbound
  change overhead chunks.flatten ≤ _ at hoverhead
  exact ⟨by omega, hbound⟩

end Retained

/-- The reads in which a stream comes do not matter, none of them leaves the buffer, all that the
stream is answered with follows from its bytes, and what is kept of it is bounded exactly when the
headers and commands of its unfinished message are. -/
theorem zmq_stream (env : Env) :
    (∀ xs ys : List (List UInt8), xs.flatten = ys.flatten →
      (readZmq env).reads xs opened = (readZmq env).reads ys opened) ∧
    (∀ chunks, Output.overrun ∉ ((readZmq env).reads chunks opened).2) ∧
    (∀ chunks, ∃ parts notifications, Answered env chunks.flatten
      ((readZmq env).reads chunks opened).1 ((readZmq env).reads chunks opened).2
      parts notifications) ∧
    ∀ streams : Set (List UInt8),
      (∃ bound, ∀ chunks, chunks.flatten ∈ streams →
        ((readZmq env).reads chunks opened).1.buffer.length ≤ bound) ↔
      ∃ bound, ∀ given ∈ streams, ((readZmq env).reads [given] opened).1.stopped = false →
        overhead given ≤ bound := by
  refine ⟨?_, ?_, ?_, ?_⟩
  · intro xs ys h
    rw [reads_opened, reads_opened, h]
  · intro chunks hoverrun
    exact Parser.reads_out (P := fun o => o ≠ Output.overrun)
      (fun s buffer o ho heq => overrun_readZmqStep s buffer (heq ▸ ho)) (settled_opened env) chunks
      _ hoverrun rfl
  · intro chunks
    rw [reads_opened]
    exact answered_run env chunks.flatten
  · intro streams
    constructor
    · rintro ⟨bound, hbound⟩
      refine ⟨bound, fun given hgiven hopen => ?_⟩
      have hflat : [given].flatten = given := List.flatten_singleton
      have hretained := (retained_bounds env [given] hopen).1
      rw [hflat] at hretained
      exact Nat.le_trans hretained (hbound [given] (by rw [hflat]; exact hgiven))
    · rintro ⟨bound, hbound⟩
      refine ⟨bound + maxZmqMessage + 9, fun chunks hchunks => ?_⟩
      have hsame : (readZmq env).reads chunks opened =
          (readZmq env).reads [chunks.flatten] opened := by
        rw [reads_opened, reads_opened, List.flatten_singleton]
      by_cases hopen : ((readZmq env).reads chunks opened).1.stopped = false
      · have hretained := (retained_bounds env chunks hopen).2
        have hoverhead := hbound chunks.flatten hchunks (hsame ▸ hopen)
        omega
      · have hclosed : ((readZmq env).reads chunks opened).1.buffer = [] := by
          rw [reads_opened] at hopen ⊢
          exact Parser.buffer_of_stopped _ _ (Bool.eq_true_of_not_eq_false hopen)
        rw [hclosed]
        exact Nat.zero_le _

section Endless

/-- A handshake, and empty commands that all announce another frame. -/
def endless (count : ℕ) : List UInt8 :=
  zmqGreeting ++ (zmqHandshake ++ (List.replicate count ([5, 0] : List UInt8)).flatten)

def agreeable : Env := ⟨fun _ => true, fun _ => true⟩

theorem parse_endless (count : ℕ) {buffer : List UInt8} (offset : ℕ)
    (hoffset : offset ≤ buffer.length)
    (hrest : buffer.drop offset = (List.replicate count ([5, 0] : List UInt8)).flatten) :
    parseZmqMessage buffer offset 0 = .error .incomplete := by
  induction count generalizing offset with
  | zero =>
      rw [parseZmqMessage_eq hoffset, hrest]
      rfl
  | succ count ih =>
      have hcons : buffer.drop offset =
          5 :: 0 :: (List.replicate count ([5, 0] : List UInt8)).flatten := hrest
      have hlength : buffer.length - offset =
          (List.replicate count ([5, 0] : List UInt8)).flatten.length + 2 := by
        rw [← List.length_drop, hcons]
        rfl
      have hnext := ih (offset + 2) (by omega) (by rw [← List.drop_drop, hcons]; rfl)
      rw [parseZmqMessage_eq hoffset, hcons]
      have hheader : header (5 :: 0 :: (List.replicate count ([5, 0] : List UInt8)).flatten) =
          some (5, 0, 2) := rfl
      rw [hheader]
      dsimp only
      rw [if_neg (by decide), if_neg (by simp only [List.length_cons]; omega), if_pos (by decide)]
      exact hnext

theorem length_endless (count : ℕ) :
    (List.replicate count ([5, 0] : List UInt8)).flatten.length = 2 * count := by
  induction count with
  | zero => rfl
  | succ count ih =>
      rw [List.replicate_succ, List.flatten_cons, List.length_append, ih]
      exact Nat.add_comm 2 _

theorem reads_endless (count : ℕ) :
    ((readZmq agreeable).reads [endless count] opened).1 =
      ⟨⟨.connected, 3, 0⟩, (List.replicate count ([5, 0] : List UInt8)).flatten, false⟩ := by
  have hgreeting : zmqGreeting.length = 64 := by decide
  have hready : zmqHandshake.length = 27 := by decide
  have hsize : zmqGreetingSize1 = 11 := rfl
  have hparse := parse_endless count 0 (Nat.zero_le _) rfl
  rw [reads_opened, List.flatten_singleton]
  unfold endless
  generalize (List.replicate count ([5, 0] : List UInt8)).flatten = frames at hparse ⊢
  have hfirst : readZmqStep agreeable {} (zmqGreeting ++ (zmqHandshake ++ frames)) =
      .next ⟨.greeting2, 1, 0⟩ 0 [.wrote (zmqGreeting.drop zmqGreetingSize1)] := by
    change readGreeting1 agreeable {} _ = _
    rw [readGreeting1_eq (by rw [List.length_append]; omega)]
    rfl
  have hsecond : readZmqStep agreeable ⟨.greeting2, 1, 0⟩
      (zmqGreeting ++ (zmqHandshake ++ frames)) =
      .next ⟨.handshake, 2, 0⟩ zmqGreeting.length [.wrote zmqHandshake] := by
    change readGreeting2 agreeable _ _ = _
    rw [readGreeting2_eq (by rw [List.length_append]; omega)]
    rfl
  have hthird : readZmqStep agreeable ⟨.handshake, 2, 0⟩ (zmqHandshake ++ frames) =
      .next ⟨.connected, 3, 0⟩ zmqHandshake.length [.wrote zmqSubscribe] := by
    change readHandshake agreeable _ _ = _
    rw [readHandshake_eq (by rw [List.length_append]; omega)]
    have hflags : (zmqHandshake ++ frames).getD 0 0 = 4 := rfl
    have hannounced : (zmqHandshake ++ frames).getD 1 0 = 25 := rfl
    have hlong : ¬ (zmqHandshake ++ frames).length < (25 : UInt8).toNat + 2 := by
      have htwenty : (25 : UInt8).toNat = 25 := rfl
      rw [List.length_append]
      omega
    rw [hflags, hannounced, if_neg (by decide), if_neg hlong]
    rfl
  have hlast : readZmqStep agreeable ⟨.connected, 3, 0⟩ frames = .wait := by
    change readMessage agreeable _ _ = _
    unfold readMessage
    rw [hparse]
  rw [Parser.run_next hfirst, List.drop_zero, Parser.run_next hsecond, List.drop_left,
    Parser.run_next hthird, List.drop_left, Parser.run_wait hlast]

/-- No bound holds for all streams: commands of an unfinished message are kept without a limit. -/
theorem zmq_stream_unbounded :
    ¬ ∃ bound, ∀ chunks : List (List UInt8),
      ((readZmq agreeable).reads chunks opened).1.buffer.length ≤ bound := by
  rintro ⟨bound, hbound⟩
  have hretained := hbound [endless (bound + 1)]
  rw [reads_endless, length_endless] at hretained
  omega

end Endless

end ZmqStream

end XmrigProxy
