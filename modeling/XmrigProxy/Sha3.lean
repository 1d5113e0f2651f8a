import XmrigProxy.KeccakHash

/-! The hash of a stream: the input comes in pieces of any size, of which a word that is not
complete is saved. -/
namespace XmrigProxy.Sha3

open Keccak Sponge

def SHA3_USE_KECCAK_FLAG : BitVec 32 := 0x80000000

def SHA3_CW (x : BitVec 32) : ℕ := (x &&& ~~~SHA3_USE_KECCAK_FLAG).toNat

def SHA3_KECCAK_SPONGE_WORDS : ℕ := 25

structure Context where
  saved : BitVec 64 := 0
  s : Lanes := zeroState
  byteIndex : ℕ := 0
  wordIndex : ℕ := 0
  capacityWords : BitVec 32

/-- The words of a block. -/
def Context.rateWords (ctx : Context) : ℕ := SHA3_KECCAK_SPONGE_WORDS - SHA3_CW ctx.capacityWords

inductive Flags where
  | none
  | keccak
  deriving DecidableEq, Repr

def init (bitSize : ℕ) : Option Context :=
  if bitSize ≠ 256 ∧ bitSize ≠ 384 ∧ bitSize ≠ 512 then Option.none
  else some { capacityWords := BitVec.ofNat 32 (2 * bitSize / (8 * 8)) }

namespace Context

def setFlags (flags : Flags) (ctx : Context) : Context :=
  { ctx with
    capacityWords := ctx.capacityWords ||| match flags with
      | .keccak => SHA3_USE_KECCAK_FLAG
      | .none => 0 }

/-- Bytes of a word that is not complete. -/
def save (buf : List UInt8) (ctx : Context) : Context :=
  { ctx with
    saved := gather ctx.saved ctx.byteIndex buf
    byteIndex := ctx.byteIndex + buf.length }

/-- The next word of the block. -/
def addWord (t : BitVec 64) (ctx : Context) : Context :=
  let s := xorAt ctx.s ctx.wordIndex t
  if ctx.wordIndex + 1 = ctx.rateWords then
    { ctx with
      s := keccakf s KECCAK_ROUNDS
      wordIndex := 0 }
  else
    { ctx with
      s := s
      wordIndex := ctx.wordIndex + 1 }

/-- The word that was saved is complete. -/
def addSaved (ctx : Context) : Context :=
  addWord ctx.saved { ctx with
    byteIndex := 0
    saved := 0 }

def update (buf : List UInt8) (ctx : Context) : Context :=
  let oldTail := (8 - ctx.byteIndex) % 8
  if buf.length < oldTail then ctx.save buf
  else
    let ctx := if oldTail = 0 then ctx else addSaved (ctx.save (buf.take oldTail))
    let buf := buf.drop oldTail
    let words := buf.length / 8
    let ctx := (List.range words).foldl
      (fun ctx i => addWord (gather 0 0 ((buf.drop (8 * i)).take 8)) ctx) ctx
    ctx.save (buf.drop (8 * words))

def finalize (ctx : Context) : List UInt8 :=
  let t : BitVec 64 :=
    if ctx.capacityWords &&& SHA3_USE_KECCAK_FLAG ≠ 0 then 1 <<< (ctx.byteIndex * 8)
    else (0x02 ||| (1 <<< 2)) <<< (ctx.byteIndex * 8)
  let s := xorAt ctx.s ctx.wordIndex (ctx.saved ^^^ t)
  let s := xorAt s (ctx.rateWords - 1) 0x8000000000000000
  Keccak.bytes (keccakf s KECCAK_ROUNDS)

end Context

/-- A hash that is made at once; nothing comes back for a size that there is not. -/
def hashBuffer (bitSize : ℕ) (flags : Flags) (input : List UInt8) (outBytes : ℕ) :
    Option (List UInt8) :=
  (init bitSize).map fun ctx =>
    ((ctx.setFlags flags).update input).finalize.take (min outBytes (bitSize / 8))

/-! ### The sponge -/

/-- The sponge that a context stands for: what is saved is mixed in already. -/
def Context.absorbing (ctx : Context) : Absorbing 25 :=
  ⟨xorAt ctx.s ctx.wordIndex ctx.saved, 8 * ctx.wordIndex + ctx.byteIndex⟩

structure Sound (ctx : Context) : Prop where
  byteIndex : ctx.byteIndex < 8
  wordIndex : ctx.wordIndex < ctx.rateWords
  free : Free ctx.saved ctx.byteIndex

namespace Context

variable {ctx : Context} {buf : List UInt8}

theorem absorbing_save (h : Sound ctx) (hfits : ctx.byteIndex + buf.length ≤ 8) :
    (ctx.save buf).absorbing =
      ⟨mix ctx.absorbing.words ctx.absorbing.pos buf, ctx.absorbing.pos + buf.length⟩ := by
  simp only [absorbing, save, xorAt_gather h.free hfits, Nat.add_assoc]

/-- Bytes that do not complete a word. -/
theorem save_absorbs (h : Sound ctx) (hshort : ctx.byteIndex + buf.length < 8) :
    (ctx.save buf).absorbing = absorbs permute (8 * ctx.rateWords) ctx.absorbing buf ∧
      Sound (ctx.save buf) := by
  have hword := h.wordIndex
  refine ⟨?_, hshort, h.wordIndex, h.free.gather buf⟩
  rw [absorbing_save h hshort.le]
  exact (absorbs_of_lt (by simp only [absorbing]; omega)).symm

/-- Nothing is saved. -/
structure Whole (ctx : Context) : Prop where
  byteIndex : ctx.byteIndex = 0
  saved : ctx.saved = 0
  wordIndex : ctx.wordIndex < ctx.rateWords

theorem Whole.sound (h : Whole ctx) : Sound ctx := by
  refine ⟨?_, h.wordIndex, ?_⟩
  · rw [h.byteIndex]
    omega
  · rw [h.saved]
    exact free_zero _

theorem Whole.of_sound (h : Sound ctx) (hbyte : ctx.byteIndex = 0) : Whole ctx := by
  refine ⟨hbyte, ?_, h.wordIndex⟩
  apply BitVec.eq_of_getLsbD_eq
  intro k _
  rw [h.free k (by omega)]
  simp

theorem Whole.absorbing (h : Whole ctx) : ctx.absorbing = ⟨ctx.s, 8 * ctx.wordIndex⟩ := by
  rw [Context.absorbing, h.byteIndex, h.saved]
  exact congrArg (Absorbing.mk · _) (xorAt_zero _ _)

theorem Whole.place (h : Whole ctx) (s : Lanes) {w : ℕ} (hw : w < ctx.rateWords) :
    Whole { ctx with
      s := s
      wordIndex := w } := by
  refine ⟨h.byteIndex, h.saved, ?_⟩
  simp only [rateWords] at hw ⊢
  exact hw

/-- A word is mixed in, and the block is settled if it was the last one. -/
theorem addWord_settles (h : Whole ctx) (t : BitVec 64) :
    (addWord t ctx).absorbing = settle permute (8 * ctx.rateWords)
      ⟨xorAt ctx.s ctx.wordIndex t, 8 * ctx.wordIndex + 8⟩ ∧
      Whole (addWord t ctx) ∧ (addWord t ctx).capacityWords = ctx.capacityWords := by
  have hword := h.wordIndex
  unfold addWord settle
  dsimp only
  by_cases hlast : ctx.wordIndex + 1 = ctx.rateWords
  · rw [if_pos hlast, if_pos (by omega)]
    have hwhole := h.place (keccakf (xorAt ctx.s ctx.wordIndex t) KECCAK_ROUNDS)
      (Nat.zero_lt_of_lt hword)
    refine ⟨?_, hwhole, ?_⟩
    · rw [hwhole.absorbing, permute]
      dsimp only
    · simp only
  · rw [if_neg hlast, if_neg (by omega)]
    have hwhole := h.place (xorAt ctx.s ctx.wordIndex t) (w := ctx.wordIndex + 1) (by omega)
    refine ⟨?_, hwhole, ?_⟩
    · rw [hwhole.absorbing, Nat.mul_add]
    · simp only

/-- The bytes of a word are absorbed at once. -/
theorem addWord_absorbs (h : Whole ctx) (hlength : buf.length = 8) :
    (addWord (gather 0 0 buf) ctx).absorbing =
      absorbs permute (8 * ctx.rateWords) ctx.absorbing buf := by
  have hword := h.wordIndex
  rw [(addWord_settles h _).1, h.absorbing, xorAt_gather_zero hlength.le,
    absorbs_of_le (List.ne_nil_of_length_pos (by omega)) (by omega), hlength]

/-- The rest of a word that was saved, and then all of it. -/
theorem addSaved_absorbs (h : Sound ctx) (hne : buf ≠ [])
    (hlength : ctx.byteIndex + buf.length = 8) :
    (addSaved (ctx.save buf)).absorbing = absorbs permute (8 * ctx.rateWords) ctx.absorbing buf ∧
      Whole (addSaved (ctx.save buf)) ∧
      (addSaved (ctx.save buf)).capacityWords = ctx.capacityWords := by
  have hword := h.wordIndex
  obtain ⟨cleared, hcleared⟩ : ∃ c : Context, { ctx.save buf with
      byteIndex := 0
      saved := 0 } = c := ⟨_, rfl⟩
  have hs : cleared.s = ctx.s := by rw [← hcleared, save]
  have hindex : cleared.wordIndex = ctx.wordIndex := by rw [← hcleared, save]
  have hcapacity : cleared.capacityWords = ctx.capacityWords := by rw [← hcleared, save]
  have hrate : cleared.rateWords = ctx.rateWords := by rw [rateWords, rateWords, hcapacity]
  have hwhole : Whole cleared := by
    refine ⟨?_, ?_, ?_⟩
    · rw [← hcleared]
    · rw [← hcleared]
    · rw [hindex, hrate]
      exact hword
  have hmix : xorAt ctx.s ctx.wordIndex (ctx.save buf).saved =
      mix ctx.absorbing.words ctx.absorbing.pos buf := by
    simp only [Context.absorbing, save, xorAt_gather h.free hlength.le]
  have hpos : 8 * ctx.wordIndex + 8 = ctx.absorbing.pos + buf.length := by
    simp only [Context.absorbing]
    omega
  obtain ⟨habsorbing, hnext, hsame⟩ := addWord_settles hwhole (ctx.save buf).saved
  rw [addSaved, hcleared]
  refine ⟨?_, hnext, hsame.trans hcapacity⟩
  rw [habsorbing, hs, hindex, hrate, hmix, hpos]
  exact (absorbs_of_le hne (by omega)).symm

/-- The whole words of a buffer. -/
theorem words_absorb (h : Whole ctx) {k : ℕ} (hk : 8 * k ≤ buf.length) {ctx' : Context}
    (hctx' : ctx' = (List.range k).foldl
      (fun ctx i => addWord (gather 0 0 ((buf.drop (8 * i)).take 8)) ctx) ctx) :
    ctx'.absorbing = absorbs permute (8 * ctx.rateWords) ctx.absorbing (buf.take (8 * k)) ∧
      Whole ctx' ∧ ctx'.capacityWords = ctx.capacityWords := by
  induction k generalizing ctx' with
  | zero =>
      subst hctx'
      exact ⟨rfl, h, rfl⟩
  | succ k ih =>
      obtain ⟨habsorbs, hwhole, hcapacity⟩ := ih (by omega) rfl
      rw [List.range_succ, List.foldl_append, List.foldl_cons, List.foldl_nil] at hctx'
      generalize (List.range k).foldl _ ctx = before at hctx' habsorbs hwhole hcapacity
      subst hctx'
      have hlength : ((buf.drop (8 * k)).take 8).length = 8 := by
        rw [List.length_take, List.length_drop]
        omega
      obtain ⟨-, hnext, hsame⟩ := addWord_settles hwhole (gather 0 0 ((buf.drop (8 * k)).take 8))
      refine ⟨?_, hnext, hsame.trans hcapacity⟩
      have hrate : before.rateWords = ctx.rateWords := by
        rw [rateWords, rateWords, hcapacity]
      rw [addWord_absorbs hwhole hlength, habsorbs, hrate, ← absorbs_append,
        show 8 * (k + 1) = 8 * k + 8 by omega, List.take_add]

/-- A piece of any size is absorbed. -/
theorem update_absorbs (h : Sound ctx) (buf : List UInt8) :
    (ctx.update buf).absorbing = absorbs permute (8 * ctx.rateWords) ctx.absorbing buf ∧
      Sound (ctx.update buf) ∧ (ctx.update buf).capacityWords = ctx.capacityWords := by
  have hbyte := h.byteIndex
  unfold update
  dsimp only
  generalize htail : (8 - ctx.byteIndex) % 8 = oldTail
  split
  · rename_i hshort
    obtain ⟨habsorbs, hsound⟩ := @save_absorbs ctx buf h (by omega)
    exact ⟨habsorbs, hsound, rfl⟩
  · rename_i hlong
    -- The word that was begun before.
    obtain ⟨first, hfirst⟩ : ∃ first,
        (if oldTail = 0 then ctx else addSaved (ctx.save (buf.take oldTail))) = first := ⟨_, rfl⟩
    have hbegun : first.absorbing =
        absorbs permute (8 * ctx.rateWords) ctx.absorbing (buf.take oldTail) ∧
        Whole first ∧ first.capacityWords = ctx.capacityWords := by
      rw [← hfirst]
      split
      · rename_i hnone
        refine ⟨?_, Whole.of_sound h (by omega), rfl⟩
        rw [hnone]
        rfl
      · rename_i hsome
        have hlength : (buf.take oldTail).length = oldTail := by
          rw [List.length_take]
          omega
        exact addSaved_absorbs h (List.ne_nil_of_length_pos (by omega)) (by omega)
    rw [hfirst]
    obtain ⟨habsorbs, hwhole, hcapacity⟩ := hbegun
    have hrate : first.rateWords = ctx.rateWords := by rw [rateWords, rateWords, hcapacity]
    have hsplit : 8 * ((buf.drop oldTail).length / 8) ≤ (buf.drop oldTail).length :=
      Nat.mul_div_le _ _
    generalize hrest : buf.drop oldTail = rest at hsplit
    generalize hwords : (List.range (rest.length / 8)).foldl
      (fun ctx i => addWord (gather 0 0 ((rest.drop (8 * i)).take 8)) ctx) first = last
    obtain ⟨hmiddle, hlast, hsame⟩ := words_absorb hwhole hsplit hwords.symm
    have hshort : (rest.drop (8 * (rest.length / 8))).length < 8 := by
      rw [List.length_drop]
      omega
    obtain ⟨hend, hsound⟩ := @save_absorbs last (rest.drop (8 * (rest.length / 8))) hlast.sound
      (by rw [hlast.byteIndex, Nat.zero_add]; exact hshort)
    refine ⟨?_, hsound, hsame.trans hcapacity⟩
    have hlastRate : last.rateWords = ctx.rateWords := by
      rw [rateWords, rateWords, hsame, hcapacity]
    rw [hend, hlastRate, hmiddle, hrate, habsorbs, ← absorbs_append, ← absorbs_append,
      List.take_append_drop, ← hrest, List.take_append_drop]

theorem updates_absorb (h : Sound ctx) (pieces : List (List UInt8)) :
    (pieces.foldl (fun ctx buf => ctx.update buf) ctx).absorbing =
        absorbs permute (8 * ctx.rateWords) ctx.absorbing pieces.flatten ∧
      Sound (pieces.foldl (fun ctx buf => ctx.update buf) ctx) ∧
      (pieces.foldl (fun ctx buf => ctx.update buf) ctx).capacityWords = ctx.capacityWords := by
  induction pieces generalizing ctx with
  | nil => exact ⟨rfl, h, rfl⟩
  | cons buf pieces ih =>
      obtain ⟨hfirst, hsound, hcapacity⟩ := update_absorbs h buf
      obtain ⟨hrest, hlast, hsame⟩ := ih hsound
      have hrate : (ctx.update buf).rateWords = ctx.rateWords := by
        rw [rateWords, rateWords, hcapacity]
      refine ⟨?_, hlast, hsame.trans hcapacity⟩
      rw [List.foldl_cons, hrest, hrate, hfirst, ← absorbs_append]
      rfl

/-- The first bits of the padding. -/
def suffix (ctx : Context) : UInt8 :=
  if ctx.capacityWords &&& SHA3_USE_KECCAK_FLAG ≠ 0 then 1 else 6

theorem finalize_eq (h : Sound ctx) :
    ctx.finalize = Keccak.bytes (finish permute (8 * ctx.rateWords) ctx.suffix ctx.absorbing) := by
  have hbyte := h.byteIndex
  have hword := h.wordIndex
  have hpadding : (if ctx.capacityWords &&& SHA3_USE_KECCAK_FLAG ≠ 0 then
        1 <<< (ctx.byteIndex * 8)
      else (0x02 ||| (1 <<< 2)) <<< (ctx.byteIndex * 8) : BitVec 64) =
      byteAt ctx.byteIndex ctx.suffix := by
    rw [suffix, byteAt, Nat.mul_comm]
    split <;> rfl
  have hlast : ∀ st : Lanes, xorByte st (8 * ctx.rateWords - 1) 0x80 =
      xorAt st (ctx.rateWords - 1) 0x8000000000000000 := by
    intro st
    rw [xorByte, show (8 * ctx.rateWords - 1) / 8 = ctx.rateWords - 1 by omega,
      show (8 * ctx.rateWords - 1) % 8 = 7 by omega]
    rfl
  have hfirst : xorByte ctx.absorbing.words ctx.absorbing.pos ctx.suffix =
      xorAt ctx.s ctx.wordIndex (ctx.saved ^^^ byteAt ctx.byteIndex ctx.suffix) := by
    simp only [absorbing, xorByte]
    rw [show (8 * ctx.wordIndex + ctx.byteIndex) / 8 = ctx.wordIndex by omega,
      show (8 * ctx.wordIndex + ctx.byteIndex) % 8 = ctx.byteIndex by omega, xorAt_xorAt]
  unfold finalize finish
  dsimp only
  rw [hpadding, hfirst, hlast, permute]

end Context

theorem init_cases {bitSize : ℕ} {ctx : Context} (h : init bitSize = some ctx) :
    (bitSize = 256 ∨ bitSize = 384 ∨ bitSize = 512) ∧
      ctx = { capacityWords := BitVec.ofNat 32 (2 * bitSize / (8 * 8)) } := by
  unfold init at h
  split at h
  · contradiction
  · exact ⟨by omega, (Option.some.inj h).symm⟩

theorem rateWords_fresh {bitSize : ℕ} (hsize : bitSize = 256 ∨ bitSize = 384 ∨ bitSize = 512)
    (flags : Flags) :
    let ctx : Context := { capacityWords := BitVec.ofNat 32 (2 * bitSize / (8 * 8)) }
    8 * (ctx.setFlags flags).rateWords = rsiz (bitSize / 8) ∧
      (ctx.setFlags flags).suffix = if flags = .keccak then 1 else 6 := by
  rcases hsize with rfl | rfl | rfl <;> cases flags <;> decide

/-- A new context is the empty sponge. -/
theorem fresh_sound {bitSize : ℕ} {ctx : Context} (h : init bitSize = some ctx) (flags : Flags) :
    Sound (ctx.setFlags flags) ∧ (ctx.setFlags flags).absorbing = ⟨zeroState, 0⟩ := by
  obtain ⟨hsize, rfl⟩ := init_cases h
  have hrate := (rateWords_fresh hsize flags).1
  have hpositive : 0 < rsiz (bitSize / 8) := by
    rcases hsize with rfl | rfl | rfl <;> decide
  refine ⟨⟨?_, ?_, free_zero 0⟩, ?_⟩
  · exact Nat.zero_lt_succ 7
  · rw [← hrate] at hpositive
    exact Nat.pos_of_mul_pos_left hpositive
  · exact congrArg (Absorbing.mk · _) (xorAt_zero _ _)

/-- The hash of a stream is that of all of its bytes, however it was cut. -/
theorem stream_eq {bitSize : ℕ} {ctx : Context} (h : init bitSize = some ctx) (flags : Flags)
    (pieces : List (List UInt8)) :
    (pieces.foldl (fun ctx buf => ctx.update buf) (ctx.setFlags flags)).finalize =
      sponge (rsiz (bitSize / 8)) (if flags = .keccak then 1 else 6) pieces.flatten := by
  obtain ⟨hsound, hempty⟩ := fresh_sound h flags
  obtain ⟨hsize, hctx⟩ := init_cases h
  obtain ⟨hrate, hsuffix⟩ := rateWords_fresh hsize flags
  rw [← hctx] at hrate hsuffix
  obtain ⟨habsorbing, hlast, hcapacity⟩ := Context.updates_absorb hsound pieces
  generalize pieces.foldl (fun ctx buf => ctx.update buf) (ctx.setFlags flags) = last at *
  have hlastRate : last.rateWords = (ctx.setFlags flags).rateWords := by
    rw [Context.rateWords, Context.rateWords, hcapacity]
  have hlastSuffix : last.suffix = (ctx.setFlags flags).suffix := by
    rw [Context.suffix, Context.suffix, hcapacity]
  rw [Context.finalize_eq hlast, hlastRate, hlastSuffix, habsorbing, hempty, hrate, hsuffix]
  rfl

theorem supported {bitSize : ℕ} (hsize : bitSize = 256 ∨ bitSize = 384 ∨ bitSize = 512) :
    Supported (bitSize / 8) := by
  rcases hsize with rfl | rfl | rfl <;> decide

/-- However a stream is cut, and for every size there is, its Keccak hash is the one that the whole
buffer has; made at once it is no other. -/
theorem stream_keccak {bitSize : ℕ} {ctx : Context} (h : init bitSize = some ctx)
    (pieces : List (List UInt8)) (outBytes : ℕ) :
    (pieces.foldl (fun ctx buf => ctx.update buf) (ctx.setFlags .keccak)).finalize.take
        (bitSize / 8) = keccak pieces.flatten (bitSize / 8) ∧
      hashBuffer bitSize .keccak pieces.flatten outBytes =
        some ((keccak pieces.flatten (bitSize / 8)).take outBytes) := by
  obtain ⟨hsize, -⟩ := init_cases h
  have hstream := stream_eq h .keccak pieces
  have hwhole := stream_eq h .keccak [pieces.flatten]
  rw [if_pos rfl] at hstream hwhole
  rw [List.flatten_singleton, List.foldl_cons, List.foldl_nil] at hwhole
  refine ⟨?_, ?_⟩
  · rw [hstream, keccak_eq (supported hsize)]
  · rw [hashBuffer, h, Option.map_some, hwhole, keccak_eq (supported hsize), List.take_take]

theorem stream_keccak_split :
    hashBuffer 256 .keccak [[1], [2, 3]].flatten 32 =
      some ((keccak [[1], [2, 3]].flatten 32).take 32) :=
  (stream_keccak (show init 256 = some _ from rfl) [[1], [2, 3]] 32).2

end XmrigProxy.Sha3
