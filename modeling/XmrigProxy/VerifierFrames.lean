import XmrigProxy.Library.Incremental
import XmrigProxy.Library.Utf8
import XmrigProxy.RandomXVerifier

/-! Documents travel between the proxy and the verifier as frames with their length in front. -/
namespace XmrigProxy

namespace RandomXVerifier

variable {κ : Type}

def frameHeader (size : ℕ) : List UInt8 :=
  [UInt8.ofNat (size / 2 ^ 24), UInt8.ofNat (size / 2 ^ 16), UInt8.ofNat (size / 2 ^ 8),
    UInt8.ofNat size]

/-- The frame of a document that was serialised, or nothing when it is refused. -/
def encodeFrame (text : List UInt8) : Option (List UInt8) :=
  if text = [] ∨ maxFrameSize < text.length then none
  else some (frameHeader text.length ++ text)

def frameSize (a b c d : UInt8) : ℕ :=
  a.toNat * 2 ^ 24 + b.toNat * 2 ^ 16 + c.toNat * 2 ^ 8 + d.toNat

/-- The verifier, and how many frames it has handled, which tells the frames apart. -/
structure Receiver (κ : Type) where
  verifier : State κ
  frames : ℕ := 0

section Frames

variable (parseJson : List UInt8 → Option Json) (env : ℕ → Env)

def receive (frame : List UInt8) (s : Receiver κ) : Receiver κ where
  verifier := (handleFrame (env s.frames) (parseJson frame) s.verifier).1
  frames := s.frames + 1

/-- One turn of the loop of `parseFrames`; the frames that are handled are observed. -/
def parseFrame (s : Receiver κ) : List UInt8 → Advance (Receiver κ) (List UInt8)
  | a :: b :: c :: d :: rest =>
      let size := frameSize a b c d
      if size = 0 ∨ maxFrameSize < size then
        .stop
          { s with
            verifier :=
              (disconnect (env s.frames) "invalid verifier frame length" true s.verifier).1 } []
      else if rest.length < size then .wait
      else
        let after := receive parseJson env (rest.take size) s
        if after.verifier.connected then .next after (4 + size) [rest.take size]
        else .stop after [rest.take size]
  | _ => .wait

def parseFrames : Parser (Receiver κ) UInt8 (List UInt8) where
  step := parseFrame parseJson env
  rank := fun _ => 0
  decreases := by
    intro s buffer s' n out h
    unfold parseFrame at h
    split at h
    · next a b c d rest =>
        dsimp only at h
        split_ifs at h with hinvalid hshort hconnected
        obtain ⟨-, rfl, -⟩ := Advance.next.inj h
        simp only [List.length_cons]
        omega
    · exact nomatch h
  stable := by
    intro s buffer more h
    unfold parseFrame at h ⊢
    split at h
    · next a b c d rest =>
        dsimp only [List.cons_append] at h ⊢
        by_cases hinvalid : frameSize a b c d = 0 ∨ maxFrameSize < frameSize a b c d
        · rw [if_pos hinvalid, if_pos hinvalid]
        · rw [if_neg hinvalid] at h ⊢
          by_cases hshort : rest.length < frameSize a b c d
          · rw [if_pos hshort] at h
            exact absurd rfl h
          · have hlong : ¬ (rest ++ more).length < frameSize a b c d := by
              rw [List.length_append]
              omega
            rw [if_neg hinvalid, if_neg hshort, if_neg hlong,
              List.take_append_of_le_length (Nat.le_of_not_lt hshort)]
    · exact absurd rfl h

/-- A connection on which nothing was read yet. -/
def opened (s : State κ) : Progress (Receiver κ) UInt8 := ⟨⟨s, 0⟩, [], false⟩

/-- Frames handled one after the other, until one of them ends the connection. -/
def receiveAll : List (List UInt8) → Receiver κ → Receiver κ × Bool × List (List UInt8)
  | [], s => (s, false, [])
  | frame :: rest, s =>
      let after := receive parseJson env frame s
      if after.verifier.connected then
        ((receiveAll rest after).1, (receiveAll rest after).2.1,
          frame :: (receiveAll rest after).2.2)
      else (after, true, [frame])

variable {parseJson env}

theorem frameSize_header {size : ℕ} (hsize : size ≤ maxFrameSize) :
    frameSize (UInt8.ofNat (size / 2 ^ 24)) (UInt8.ofNat (size / 2 ^ 16))
      (UInt8.ofNat (size / 2 ^ 8))
      (UInt8.ofNat size) = size := by
  have hmax : maxFrameSize = 16384 := rfl
  unfold frameSize
  simp only [UInt8.toNat_ofNat']
  omega

theorem encodeFrame_eq_some {text frame : List UInt8} (h : encodeFrame text = some frame) :
    text ≠ [] ∧ text.length ≤ maxFrameSize ∧ frame = frameHeader text.length ++ text := by
  unfold encodeFrame at h
  split_ifs at h with hrefused
  rw [not_or] at hrefused
  exact ⟨hrefused.1, Nat.le_of_not_lt hrefused.2, (Option.some.inj h).symm⟩

/-- A frame that was written is handled as the document that it carries. -/
theorem parseFrame_encode {text frame : List UInt8} (h : encodeFrame text = some frame)
    (s : Receiver κ) (more : List UInt8) : parseFrame parseJson env s (frame ++ more) =
      if (receive parseJson env text s).verifier.connected then
        .next (receive parseJson env text s) (4 + text.length) [text]
      else .stop (receive parseJson env text s) [text] := by
  obtain ⟨hsome, hfits, rfl⟩ := encodeFrame_eq_some h
  have hpositive : text.length ≠ 0 := fun hnone => hsome (List.length_eq_zero_iff.mp hnone)
  unfold frameHeader parseFrame
  simp only [List.cons_append, List.nil_append]
  rw [frameSize_header hfits, if_neg (by omega), if_neg (by rw [List.length_append]; omega),
    List.take_left]

theorem run_encoded (texts : List (List UInt8)) (hsent : ∀ text ∈ texts, encodeFrame text ≠ none)
    (s : Receiver κ) :
    (parseFrames parseJson env).run s (texts.filterMap encodeFrame).flatten =
      (⟨(receiveAll parseJson env texts s).1, [], (receiveAll parseJson env texts s).2.1⟩,
        (receiveAll parseJson env texts s).2.2) := by
  induction texts generalizing s with
  | nil => exact Parser.run_wait rfl
  | cons text rest ih =>
      obtain ⟨frame, hframe⟩ := Option.ne_none_iff_exists'.mp (hsent text List.mem_cons_self)
      have hstep : parseFrame parseJson env s (frame ++ (rest.filterMap encodeFrame).flatten) = _ :=
        parseFrame_encode hframe s _
      have hlength : frame.length = 4 + text.length := by
        rw [(encodeFrame_eq_some hframe).2.2, List.length_append]
        rfl
      rw [List.filterMap_cons_some hframe, List.flatten_cons]
      unfold receiveAll
      by_cases hconnected : (receive parseJson env text s).verifier.connected = true
      · rw [if_pos hconnected] at hstep ⊢
        rw [Parser.run_next hstep, ← hlength, List.drop_left,
          ih fun x hx => hsent x (List.mem_cons_of_mem _ hx)]
        rfl
      · rw [if_neg hconnected] at hstep ⊢
        exact Parser.run_stop hstep

theorem receiveAll_connected {text : List UInt8} {s : Receiver κ}
    (h : (receive parseJson env text s).verifier.connected = true) (rest : List (List UInt8)) :
    receiveAll parseJson env (text :: rest) s =
      ((receiveAll parseJson env rest (receive parseJson env text s)).1,
        (receiveAll parseJson env rest (receive parseJson env text s)).2.1,
        text :: (receiveAll parseJson env rest (receive parseJson env text s)).2.2) := if_pos h

theorem receiveAll_disconnected {text : List UInt8} {s : Receiver κ}
    (h : ¬ (receive parseJson env text s).verifier.connected = true) (rest : List (List UInt8)) :
    receiveAll parseJson env (text :: rest) s = (receive parseJson env text s, true, [text]) :=
  if_neg h

theorem receiveAll_inOrder (texts : List (List UInt8)) (s : Receiver κ) :
    (receiveAll parseJson env texts s).2.2 <+: texts := by
  induction texts generalizing s with
  | nil => exact List.prefix_rfl
  | cons text rest ih =>
      by_cases hconnected : (receive parseJson env text s).verifier.connected = true
      · rw [receiveAll_connected hconnected]
        exact List.cons_prefix_cons.mpr ⟨rfl, ih _⟩
      · rw [receiveAll_disconnected hconnected]
        exact List.cons_prefix_cons.mpr ⟨rfl, List.nil_prefix⟩

theorem receiveAll_state (texts : List (List UInt8)) (s : Receiver κ) :
    (receiveAll parseJson env texts s).1 =
      (receiveAll parseJson env texts s).2.2.foldl
        (fun s text => receive parseJson env text s) s := by
  induction texts generalizing s with
  | nil => rfl
  | cons text rest ih =>
      by_cases hconnected : (receive parseJson env text s).verifier.connected = true
      · rw [receiveAll_connected hconnected]
        exact ih _
      · rw [receiveAll_disconnected hconnected]
        rfl

theorem receiveAll_complete (texts : List (List UInt8)) (s : Receiver κ)
    (h : (receiveAll parseJson env texts s).2.1 = false) :
    (receiveAll parseJson env texts s).2.2 = texts := by
  induction texts generalizing s with
  | nil => rfl
  | cons text rest ih =>
      by_cases hconnected : (receive parseJson env text s).verifier.connected = true
      · rw [receiveAll_connected hconnected] at h ⊢
        exact congrArg (text :: ·) (ih _ h)
      · rw [receiveAll_disconnected hconnected] at h
        exact nomatch h

/-- A connection is ended by a document, so there is one. -/
theorem receiveAll_ne_nil (texts : List (List UInt8)) (s : Receiver κ)
    (h : (receiveAll parseJson env texts s).2.1 = true) :
    (receiveAll parseJson env texts s).2.2 ≠ [] := by
  rcases texts with _ | ⟨text, rest⟩
  · exact nomatch h
  · by_cases hconnected : (receive parseJson env text s).verifier.connected = true
    · rw [receiveAll_connected hconnected]
      exact List.cons_ne_nil _ _
    · rw [receiveAll_disconnected hconnected]
      exact List.cons_ne_nil _ _

/-- Only the last document that was handled may have ended the connection. -/
theorem receiveAll_closes (texts : List (List UInt8)) (s : Receiver κ)
    (given : List (List UInt8)) (hgiven : given ≠ [])
    (hwithin : given <+: (receiveAll parseJson env texts s).2.2) :
    (given.foldl (fun s text => receive parseJson env text s) s).verifier.connected = false ↔
      given = (receiveAll parseJson env texts s).2.2 ∧
        (receiveAll parseJson env texts s).2.1 = true := by
  induction texts generalizing s given with
  | nil => exact absurd (List.prefix_nil.mp hwithin) hgiven
  | cons text rest ih =>
      rcases given with _ | ⟨first, given⟩
      · exact absurd rfl hgiven
      by_cases hconnected : (receive parseJson env text s).verifier.connected = true
      · rw [receiveAll_connected hconnected] at hwithin ⊢
        obtain ⟨rfl, hrest⟩ := List.cons_prefix_cons.mp hwithin
        rw [List.foldl_cons, List.cons.injEq]
        rcases given with _ | ⟨second, given⟩
        · rw [List.foldl_nil, hconnected]
          refine iff_of_false (fun h => nomatch h) ?_
          rintro ⟨⟨-, hnone⟩, hclosed⟩
          exact receiveAll_ne_nil rest _ hclosed hnone.symm
        · rw [ih (receive parseJson env first s) _ (List.cons_ne_nil _ _) hrest]
          simp only [true_and]
      · rw [receiveAll_disconnected hconnected] at hwithin ⊢
        obtain ⟨rfl, hrest⟩ := List.cons_prefix_cons.mp hwithin
        rw [List.prefix_nil.mp hrest]
        rw [Bool.not_eq_true] at hconnected
        exact iff_of_true hconnected ⟨rfl, rfl⟩

/-- The documents are handled in order, up to the first that ends the connection; nothing else ends
it. -/
structure HandedOver (parseJson : List UInt8 → Option Json) (env : ℕ → Env)
    (texts : List (List UInt8)) (s : Receiver κ) (r : Progress (Receiver κ) UInt8)
    (handled : List (List UInt8)) : Prop where
  inOrder : handled <+: texts
  state : r.state = handled.foldl (fun s text => receive parseJson env text s) s
  complete : r.stopped = false → handled = texts
  ended : r.stopped = true → handled ≠ []
  closes : ∀ given, given ≠ [] → given <+: handled →
    ((given.foldl (fun s text => receive parseJson env text s) s).verifier.connected = false ↔
      given = handled ∧ r.stopped = true)

theorem settled_opened (s : State κ) : (parseFrames parseJson env).Settled (opened s) := Or.inr rfl

/-- What was sent is received in the same way, however it is cut into reads. -/
theorem reads_encoded {texts chunks : List (List UInt8)}
    (hsent : ∀ text ∈ texts, encodeFrame text ≠ none)
    (hchunks : chunks.flatten = (texts.filterMap encodeFrame).flatten) (s : State κ) :
    (parseFrames parseJson env).reads chunks (opened s) =
      (⟨(receiveAll parseJson env texts ⟨s, 0⟩).1, [], (receiveAll parseJson env texts ⟨s, 0⟩).2.1⟩,
        (receiveAll parseJson env texts ⟨s, 0⟩).2.2) := by
  rw [Parser.reads_eq (settled_opened s), hchunks]
  exact run_encoded texts hsent _

theorem handedOver_reads {texts chunks : List (List UInt8)}
    (hsent : ∀ text ∈ texts, encodeFrame text ≠ none)
    (hchunks : chunks.flatten = (texts.filterMap encodeFrame).flatten) (s : State κ) :
    HandedOver parseJson env texts ⟨s, 0⟩ ((parseFrames parseJson env).reads chunks (opened s)).1
      ((parseFrames parseJson env).reads chunks (opened s)).2 := by
  rw [reads_encoded hsent hchunks]
  constructor
  · exact receiveAll_inOrder texts _
  · exact receiveAll_state texts _
  · exact receiveAll_complete texts _
  · exact receiveAll_ne_nil texts _
  · exact receiveAll_closes texts _

theorem frames_reads (parseJson : List UInt8 → Option Json) (env : ℕ → Env) (s : State κ) :
    (∀ texts chunks : List (List UInt8), (∀ text ∈ texts, encodeFrame text ≠ none) →
      chunks.flatten = (texts.filterMap encodeFrame).flatten →
      HandedOver parseJson env texts ⟨s, 0⟩
        ((parseFrames parseJson env).reads chunks (opened s)).1
        ((parseFrames parseJson env).reads chunks (opened s)).2) ∧
    (∀ xs ys : List (List UInt8), xs.flatten = ys.flatten →
      (parseFrames parseJson env).reads xs (opened s) =
        (parseFrames parseJson env).reads ys (opened s)) := by
  constructor
  · intro texts chunks hsent hchunks
    exact handedOver_reads hsent hchunks s
  · intro xs ys h
    rw [Parser.reads_eq (settled_opened s), Parser.reads_eq (settled_opened s), h]

/-- A document without the version ends the connection, and the next one is not handled. -/
theorem frames_not_all_handled :
    ¬ ∀ (parseJson : List UInt8 → Option Json) (env : ℕ → Env) (s : State Unit)
      (texts chunks : List (List UInt8)), (∀ text ∈ texts, encodeFrame text ≠ none) →
      chunks.flatten = (texts.filterMap encodeFrame).flatten →
      ((parseFrames parseJson env).reads chunks (opened s)).2 = texts := by
  intro h
  have hsent : ∀ text ∈ [bytes "{}", bytes "{}"], encodeFrame text ≠ none := by decide
  have hall := h (fun _ => some (.obj [])) (fun _ => ⟨0, true, fun _ => .sent⟩)
    { connected := true, pipe := true } _ [_] hsent List.flatten_singleton
  rw [reads_encoded hsent List.flatten_singleton, receiveAll_disconnected (by decide)] at hall
  exact absurd hall (by decide)

end Frames

end RandomXVerifier

end XmrigProxy
