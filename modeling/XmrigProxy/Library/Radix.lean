import Mathlib.Data.Nat.Digits.Lemmas
import Mathlib.Tactic.Common

/-!
# Numbers in blocks of digits

Numbers written with a fixed number of digits, the highest first, in the symbols of some alphabet.
A text is carried from one alphabet to another block by block: the full blocks of both sides have
fixed sizes, and the sizes of a shorter last block correspond. A lenient reader keeps the low digits
of a block and drops the rest of its number. What is written is read back, nothing is dropped then,
and two texts that are read as the same differ in what is dropped.
-/

namespace XmrigProxy

/-- An alphabet: the digit that a symbol stands for is below the base exactly for its own
symbols. -/
structure Radix (α : Type*) where
  base : ℕ
  digit : α → ℕ
  symbol : ℕ → α
  one_lt : 1 < base
  digit_symbol : ∀ n < base, digit (symbol n) = n
  symbol_digit : ∀ a, digit a < base → symbol (digit a) = a

namespace Radix

variable {α : Type*} (R : Radix α)

def Valid (xs : List α) : Prop := ∀ a ∈ xs, R.digit a < R.base

instance (xs : List α) : Decidable (R.Valid xs) :=
  inferInstanceAs (Decidable (∀ a ∈ xs, R.digit a < R.base))

def value (xs : List α) : ℕ := Nat.ofDigits R.base (xs.reverse.map R.digit)

def write (n v : ℕ) : List α := ((Nat.digitsAppend R.base n v).map R.symbol).reverse

variable {R}

theorem Valid.append {xs ys : List α} (hxs : R.Valid xs) (hys : R.Valid ys) :
    R.Valid (xs ++ ys) := by
  intro a ha
  rcases List.mem_append.mp ha with ha | ha
  · exact hxs a ha
  · exact hys a ha

theorem Valid.take {xs : List α} (h : R.Valid xs) (n : ℕ) : R.Valid (xs.take n) :=
  fun a ha => h a (List.mem_of_mem_take ha)

theorem Valid.drop {xs : List α} (h : R.Valid xs) (n : ℕ) : R.Valid (xs.drop n) :=
  fun a ha => h a (List.mem_of_mem_drop ha)

theorem Valid.digits_lt {xs : List α} (h : R.Valid xs) :
    ∀ d ∈ xs.reverse.map R.digit, d < R.base := by
  intro d hd
  obtain ⟨a, ha, rfl⟩ := List.mem_map.mp hd
  exact h a (List.mem_reverse.mp ha)

theorem value_lt {xs : List α} (h : R.Valid xs) : R.value xs < R.base ^ xs.length := by
  have hlt := Nat.ofDigits_lt_base_pow_length R.one_lt h.digits_lt
  rwa [List.length_map, List.length_reverse] at hlt

theorem length_write {n v : ℕ} (h : v < R.base ^ n) : (R.write n v).length = n := by
  rw [write, List.length_reverse, List.length_map, Nat.length_digitsAppend R.one_lt n h]

theorem valid_write (n v : ℕ) : R.Valid (R.write n v) := by
  intro a ha
  obtain ⟨d, hd, rfl⟩ := List.mem_map.mp (List.mem_reverse.mp ha)
  have hlt := Nat.lt_of_mem_digitsAppend R.one_lt n _ hd
  rw [R.digit_symbol d hlt]
  exact hlt

theorem value_write {n v : ℕ} (h : v < R.base ^ n) : R.value (R.write n v) = v := by
  have hmap : ((Nat.digitsAppend R.base n v).map R.symbol).map R.digit =
      Nat.digitsAppend R.base n v := by
    rw [List.map_map]
    refine (List.map_congr_left fun d hd => ?_).trans (List.map_id _)
    exact R.digit_symbol d (Nat.lt_of_mem_digitsAppend R.one_lt n _ hd)
  rw [value, write, List.reverse_reverse, hmap]
  exact (Nat.setInvOn_digitsAppend_ofDigits R.one_lt n).2 h

theorem value_inj {xs ys : List α} (hxs : R.Valid xs) (hys : R.Valid ys)
    (hlength : xs.length = ys.length) (h : R.value xs = R.value ys) : xs = ys := by
  have hdigits : xs.reverse.map R.digit = ys.reverse.map R.digit := by
    refine Nat.ofDigits_inj_of_len_eq R.one_lt ?_ hxs.digits_lt hys.digits_lt h
    rw [List.length_map, List.length_map, List.length_reverse, List.length_reverse, hlength]
  have hsymbols : ∀ {zs : List α}, R.Valid zs →
      (zs.reverse.map R.digit).map R.symbol = zs.reverse := by
    intro zs hzs
    rw [List.map_map]
    refine (List.map_congr_left fun a ha => ?_).trans (List.map_id _)
    exact R.symbol_digit a (hzs a (List.mem_reverse.mp ha))
  have hreverse : xs.reverse = ys.reverse := by
    rw [← hsymbols hxs, ← hsymbols hys, hdigits]
  exact List.reverse_injective hreverse

theorem write_value {xs : List α} (h : R.Valid xs) : R.write xs.length (R.value xs) = xs := by
  have hlt := value_lt h
  exact value_inj (valid_write _ _) h (length_write hlt) (value_write hlt)

end Radix

/-- How a text in the symbols `bytes` is written in the symbols `chars`: full blocks of `full`
become blocks of `size full`, and a last block of `k` becomes one of `size k`. -/
structure BlockCode (α β : Type*) where
  chars : Radix α
  bytes : Radix β
  full : ℕ
  size : ℕ → ℕ
  full_pos : 0 < full
  fits : ∀ k ≤ full, bytes.base ^ k ≤ chars.base ^ size k

namespace BlockCode

variable {α β : Type*} (C : BlockCode α β)

def encodeBlock (bs : List β) : List α := C.chars.write (C.size bs.length) (C.bytes.value bs)

def encodeBlocks : ℕ → List β → List α
  | 0, bs => C.encodeBlock bs
  | n + 1, bs => C.encodeBlock (bs.take C.full) ++ encodeBlocks n (bs.drop C.full)

def encode (bs : List β) : List α := C.encodeBlocks (bs.length / C.full) bs

/-- A block is read as `k` symbols, whatever its number. -/
def readBlock (k : ℕ) (cs : List α) : List β :=
  C.bytes.write k (C.chars.value cs % C.bytes.base ^ k)

/-- What `readBlock` leaves out. -/
def dropped (k : ℕ) (cs : List α) : ℕ := C.chars.value cs / C.bytes.base ^ k

/-- The reading of `n` full blocks and of a last one of `k`. -/
def read : ℕ → ℕ → List α → List β
  | 0, k, cs => C.readBlock k cs
  | n + 1, k, cs => C.readBlock C.full (cs.take (C.size C.full)) ++
      read n k (cs.drop (C.size C.full))

/-- Each full block is one that can have been written. -/
def InRange : ℕ → List α → Prop
  | 0, _ => True
  | n + 1, cs => C.dropped C.full (cs.take (C.size C.full)) = 0 ∧
      InRange n (cs.drop (C.size C.full))

instance decidableInRange : (n : ℕ) → (cs : List α) → Decidable (C.InRange n cs)
  | 0, _ => isTrue trivial
  | n + 1, cs =>
      have := decidableInRange n (cs.drop (C.size C.full))
      inferInstanceAs (Decidable (_ ∧ _))

def lastDropped : ℕ → ℕ → List α → ℕ
  | 0, k, cs => C.dropped k cs
  | n + 1, k, cs => lastDropped n k (cs.drop (C.size C.full))

variable {C}

section Blocks

variable {k : ℕ} {bs : List β} {cs ds : List α}

theorem mod_lt (k v : ℕ) : v % C.bytes.base ^ k < C.bytes.base ^ k :=
  Nat.mod_lt _ (Nat.pow_pos (Nat.zero_lt_of_lt C.bytes.one_lt))

theorem length_readBlock (k : ℕ) (cs : List α) : (C.readBlock k cs).length = k :=
  Radix.length_write (mod_lt k _)

theorem value_readBlock (k : ℕ) (cs : List α) :
    C.bytes.value (C.readBlock k cs) = C.chars.value cs % C.bytes.base ^ k :=
  Radix.value_write (mod_lt k _)

/-- The number of a block is what is kept of it and what is dropped. -/
theorem value_eq (k : ℕ) (cs : List α) :
    C.chars.value cs =
      C.bytes.base ^ k * C.dropped k cs + C.bytes.value (C.readBlock k cs) := by
  rw [value_readBlock, dropped]
  exact (Nat.div_add_mod _ _).symm

theorem readBlock_inj (hcs : C.chars.Valid cs) (hds : C.chars.Valid ds)
    (hlength : cs.length = ds.length) (hread : C.readBlock k cs = C.readBlock k ds)
    (hdropped : C.dropped k cs = C.dropped k ds) :
    cs = ds := by
  apply Radix.value_inj hcs hds hlength
  rw [value_eq k cs, value_eq k ds, hread, hdropped]

theorem encodeBlock_readBlock (hcs : C.chars.Valid cs) (hlength : cs.length = C.size k)
    (hdropped : C.dropped k cs = 0) : C.encodeBlock (C.readBlock k cs) = cs := by
  have hvalue : C.bytes.value (C.readBlock k cs) = C.chars.value cs := by
    rw [value_eq k cs, hdropped, Nat.mul_zero, Nat.zero_add]
  rw [encodeBlock, length_readBlock, hvalue, ← hlength]
  exact Radix.write_value hcs

theorem value_lt_size (hbs : C.bytes.Valid bs) (hlength : bs.length ≤ C.full) :
    C.bytes.value bs < C.chars.base ^ C.size bs.length :=
  lt_of_lt_of_le (Radix.value_lt hbs) (C.fits _ hlength)

theorem length_encodeBlock (hbs : C.bytes.Valid bs) (hlength : bs.length ≤ C.full) :
    (C.encodeBlock bs).length = C.size bs.length :=
  Radix.length_write (value_lt_size hbs hlength)

theorem dropped_encodeBlock (hbs : C.bytes.Valid bs) (hlength : bs.length ≤ C.full) :
    C.dropped bs.length (C.encodeBlock bs) = 0 := by
  rw [dropped, encodeBlock, Radix.value_write (value_lt_size hbs hlength)]
  exact Nat.div_eq_of_lt (Radix.value_lt hbs)

theorem readBlock_encodeBlock (hbs : C.bytes.Valid bs) (hlength : bs.length ≤ C.full) :
    C.readBlock bs.length (C.encodeBlock bs) = bs := by
  rw [readBlock, encodeBlock, Radix.value_write (value_lt_size hbs hlength),
    Nat.mod_eq_of_lt (Radix.value_lt hbs)]
  exact Radix.write_value hbs

end Blocks

section Texts

variable {n k : ℕ} {bs : List β} {cs ds : List α}

theorem length_read (n k : ℕ) (cs : List α) : (C.read n k cs).length = n * C.full + k := by
  induction n generalizing cs with
  | zero => rw [read, length_readBlock, Nat.zero_mul, Nat.zero_add]
  | succ n ih =>
      rw [read, List.length_append, length_readBlock, ih, Nat.succ_mul]
      omega

theorem length_take_size (h : cs.length = (n + 1) * C.size C.full + C.size k) :
    (cs.take (C.size C.full)).length = C.size C.full ∧
      (cs.drop (C.size C.full)).length = n * C.size C.full + C.size k := by
  rw [Nat.succ_mul] at h
  rw [List.length_take, List.length_drop]
  omega

/-- Texts of one length that are read as the same differ in what is dropped of the last block. -/
theorem read_inj (hcs : C.chars.Valid cs) (hds : C.chars.Valid ds)
    (hclength : cs.length = n * C.size C.full + C.size k)
    (hdlength : ds.length = n * C.size C.full + C.size k)
    (hcrange : C.InRange n cs) (hdrange : C.InRange n ds) (hread : C.read n k cs = C.read n k ds)
    (hdropped : C.lastDropped n k cs = C.lastDropped n k ds) : cs = ds := by
  induction n generalizing cs ds with
  | zero => exact readBlock_inj hcs hds (hclength.trans hdlength.symm) hread hdropped
  | succ n ih =>
      obtain ⟨hctake, hcdrop⟩ := length_take_size hclength
      obtain ⟨hdtake, hddrop⟩ := length_take_size hdlength
      have hsizes : (C.readBlock C.full (cs.take (C.size C.full))).length =
          (C.readBlock C.full (ds.take (C.size C.full))).length := by
        rw [length_readBlock, length_readBlock]
      obtain ⟨hhead, htail⟩ := List.append_inj hread hsizes
      have htake := readBlock_inj (hcs.take _) (hds.take _) (hctake.trans hdtake.symm) hhead
        (hcrange.1.trans hdrange.1.symm)
      have hdrop := ih (hcs.drop _) (hds.drop _) hcdrop hddrop hcrange.2 hdrange.2 htail hdropped
      rw [← List.take_append_drop (C.size C.full) cs, htake, hdrop, List.take_append_drop]

/-- A text of which nothing is dropped is the one that is written for its reading. -/
theorem encodeBlocks_read (hcs : C.chars.Valid cs)
    (hlength : cs.length = n * C.size C.full + C.size k) (hrange : C.InRange n cs)
    (hdropped : C.lastDropped n k cs = 0) : C.encodeBlocks n (C.read n k cs) = cs := by
  induction n generalizing cs with
  | zero =>
      rw [Nat.zero_mul, Nat.zero_add] at hlength
      exact encodeBlock_readBlock hcs hlength hdropped
  | succ n ih =>
      obtain ⟨htake, hdrop⟩ := length_take_size hlength
      have hsize := length_readBlock (C := C) C.full (cs.take (C.size C.full))
      rw [read, encodeBlocks, List.take_left' hsize, List.drop_left' hsize,
        encodeBlock_readBlock (hcs.take _) htake hrange.1, ih (hcs.drop _) hdrop hrange.2 hdropped,
        List.take_append_drop]

theorem encode_read (hk : k < C.full) (hcs : C.chars.Valid cs)
    (hlength : cs.length = n * C.size C.full + C.size k) (hrange : C.InRange n cs)
    (hdropped : C.lastDropped n k cs = 0) : C.encode (C.read n k cs) = cs := by
  have hn : (n * C.full + k) / C.full = n := by
    rw [Nat.mul_comm, Nat.mul_add_div C.full_pos, Nat.div_eq_of_lt hk, Nat.add_zero]
  rw [encode, length_read, hn]
  exact encodeBlocks_read hcs hlength hrange hdropped

theorem lastDropped_eq (n k : ℕ) (cs : List α) :
    C.lastDropped n k cs = C.dropped k (cs.drop (n * C.size C.full)) := by
  induction n generalizing cs with
  | zero => rw [lastDropped, Nat.zero_mul, List.drop_zero]
  | succ n ih => rw [lastDropped, ih, List.drop_drop, Nat.succ_mul, Nat.add_comm]

/-- A last block with room for one more multiple is read as another text is. -/
theorem exists_twin (hroom : 2 * C.bytes.base ^ k ≤ C.chars.base ^ C.size k)
    (hcs : C.chars.Valid cs) (hlength : cs.length = n * C.size C.full + C.size k)
    (hrange : C.InRange n cs) :
    ∃ ds, ds ≠ cs ∧ C.chars.Valid ds ∧ ds.length = cs.length ∧ C.InRange n ds ∧
      C.read n k ds = C.read n k cs ∧
      ds.take (n * C.size C.full) = cs.take (n * C.size C.full) := by
  induction n generalizing cs with
  | zero =>
      rw [Nat.zero_mul, Nat.zero_add] at hlength
      have hvalue := Radix.value_lt hcs
      rw [hlength] at hvalue
      obtain ⟨w, hw, hmod, hne⟩ : ∃ w, w < C.chars.base ^ C.size k ∧
          w % C.bytes.base ^ k = C.chars.value cs % C.bytes.base ^ k ∧ w ≠ C.chars.value cs := by
        have hpos := mod_lt (C := C) k 0
        by_cases hlow : C.chars.value cs < C.bytes.base ^ k
        · exact ⟨C.chars.value cs + C.bytes.base ^ k, by omega, Nat.add_mod_right _ _, by omega⟩
        · have hlt := mod_lt (C := C) k (C.chars.value cs)
          exact ⟨C.chars.value cs % C.bytes.base ^ k, by omega, Nat.mod_mod _ _, by omega⟩
      refine ⟨C.chars.write (C.size k) w, ?_, Radix.valid_write _ _, ?_, trivial, ?_, ?_⟩
      · intro heq
        apply hne
        rw [← heq, Radix.value_write hw]
      · rw [Radix.length_write hw, hlength]
      · rw [read, read, readBlock, readBlock, Radix.value_write hw, hmod]
      · rw [Nat.zero_mul, List.take_zero, List.take_zero]
  | succ n ih =>
      obtain ⟨htake, hdrop⟩ := length_take_size hlength
      obtain ⟨ds, hne, hds, hdlength, hdrange, hread, hsame⟩ := ih (hcs.drop _) hdrop hrange.2
      refine ⟨cs.take (C.size C.full) ++ ds, ?_, (hcs.take _).append hds, ?_, ?_, ?_, ?_⟩
      · intro heq
        apply hne
        rw [← heq, List.drop_left' htake]
      · rw [List.length_append, hdlength, ← List.length_append, List.take_append_drop]
      · rw [InRange, List.take_left' htake, List.drop_left' htake]
        exact ⟨hrange.1, hdrange⟩
      · rw [read, read, List.take_left' htake, List.drop_left' htake, hread]
      · have hsum : (n + 1) * C.size C.full = C.size C.full + n * C.size C.full := by
          rw [Nat.succ_mul, Nat.add_comm]
        rw [hsum, List.take_add, List.take_add, List.take_left' htake, List.drop_left' htake, hsame]

/-- What is written can be read: in valid symbols, of the length that is due, and nothing is
dropped. -/
structure Written (C : BlockCode α β) (n k : ℕ) (bs : List β) (cs : List α) : Prop where
  valid : C.chars.Valid cs
  length : cs.length = n * C.size C.full + C.size k
  range : C.InRange n cs
  dropped : C.lastDropped n k cs = 0
  read : C.read n k cs = bs

theorem written_encodeBlocks (hk : k ≤ C.full) (hbs : C.bytes.Valid bs)
    (hlength : bs.length = n * C.full + k) : C.Written n k bs (C.encodeBlocks n bs) := by
  induction n generalizing bs with
  | zero =>
      rw [Nat.zero_mul, Nat.zero_add] at hlength
      subst hlength
      refine ⟨Radix.valid_write _ _, ?_, trivial, dropped_encodeBlock hbs hk,
        readBlock_encodeBlock hbs hk⟩
      rw [Nat.zero_mul, Nat.zero_add]
      exact length_encodeBlock hbs hk
  | succ n ih =>
      rw [Nat.succ_mul] at hlength
      have htake : (bs.take C.full).length = C.full := by
        rw [List.length_take]
        omega
      have hdrop : (bs.drop C.full).length = n * C.full + k := by
        rw [List.length_drop]
        omega
      have hrest := ih (hbs.drop _) hdrop
      have hhead := hbs.take C.full
      have hsize := length_encodeBlock hhead htake.le
      have hnone := dropped_encodeBlock hhead htake.le
      have hback := readBlock_encodeBlock hhead htake.le
      rw [htake] at hsize hnone hback
      rw [encodeBlocks]
      constructor
      · exact (Radix.valid_write _ _).append hrest.valid
      · rw [List.length_append, hsize, hrest.length, Nat.succ_mul]
        omega
      · rw [InRange, List.take_left' hsize, List.drop_left' hsize]
        exact ⟨hnone, hrest.range⟩
      · rw [lastDropped, List.drop_left' hsize]
        exact hrest.dropped
      · rw [BlockCode.read, List.take_left' hsize, List.drop_left' hsize, hback, hrest.read,
          List.take_append_drop]

theorem written_encode (hbs : C.bytes.Valid bs) :
    C.Written (bs.length / C.full) (bs.length % C.full) bs (C.encode bs) :=
  written_encodeBlocks (Nat.mod_lt _ C.full_pos).le hbs (Nat.div_add_mod' _ _).symm

end Texts

end BlockCode

end XmrigProxy
