import XmrigProxy.BlockTemplate

/-! Decoding a wallet address. The text is base 58 in blocks of eleven characters, each of which is
summed up in 64 bits; the bytes are then read field by field into the object, which keeps what was
read also when a later field is missing. -/
namespace XmrigProxy

structure WalletAddress where
  data : Buffer := []
  tag : ℕ := 0
  checksum : Buffer := List.replicate 4 0
  publicSpendKey : Buffer := List.replicate 32 0
  publicViewKey : Buffer := List.replicate 32 0
  deriving DecidableEq

namespace WalletAddress

open BlockTemplate (word64)

def kKeySize : ℕ := 32
def kMaxSize : ℕ := 256
def kMinDataSize : ℕ := 69
def kMinSize : ℕ := 95

def isValid (self : WalletAddress) : Prop := 0 < self.tag ∧ kMinSize ≤ self.data.length

instance (self : WalletAddress) : Decidable self.isValid := inferInstanceAs (Decidable (_ ∧ _))

def char (c : Char) : UInt8 := UInt8.ofNat c.toNat

def alphabet : Buffer :=
  "123456789ABCDEFGHJKLMNPQRSTUVWXYZabcdefghijkmnopqrstuvwxyz".toList.map char

def blockSizes : List ℕ := [0, 2, 3, 5, 6, 7, 9, 10, 11]

/-- The tag of a Townforge prefix, which is zero without one, and the address behind it. -/
def tfTag (address : Buffer) : Option (ℕ × Buffer) :=
  if 4 ≤ address.length ∧ address.take 2 = [char 'T', char 'F'] then
    let version :=
      if address[2]? = some (char '1') then some 0
      else if address[2]? = some (char '2') then some 1
      else none
    let net :=
      if address[3]? = some (char 'M') then some 0
      else if address[3]? = some (char 'T') then some 0x10
      else if address[3]? = some (char 'S') then some 0x20
      else none
    version.bind fun version => net.map fun net => (0x424200 ||| version ||| net, address.drop 4)
  else some (0, address)

/-- The characters of a block from its last one on. -/
def blockLoop : Buffer → ℕ → ℕ → Option ℕ
  | [], num, _ => some num
  | c :: rest, num, order =>
      match alphabet.idxOf? c with
      | none => none
      | some digit =>
          let product := order * digit
          let hi := product / 2 ^ 64
          let tmp := word64 (num + word64 product)
          if tmp < num ∨ hi ≠ 0 then none
          else blockLoop rest tmp (word64 (order * alphabet.length))

/-- The low `size` bytes of a number, of which the highest comes first. -/
def emplace (size num : ℕ) : Buffer :=
  (List.range size).reverse.map fun j => UInt8.ofNat (num / 2 ^ (8 * j))

def blocksLoop (lastBlockSize lastBlockSizeIndex : ℕ) : ℕ → Buffer → Option Buffer
  | 0, address =>
      (blockLoop (address.take lastBlockSize).reverse 0 1).map fun num =>
        emplace lastBlockSizeIndex num
  | left + 1, address =>
      (blockLoop (address.take 11).reverse 0 1).bind fun num =>
        (blocksLoop lastBlockSize lastBlockSizeIndex left (address.drop 11)).map
          (emplace 8 num ++ ·)

def blocks (address : Buffer) : Option Buffer :=
  if address.length < kMinSize ∨ kMaxSize < address.length then none
  else
    let numFullBlocks := address.length / 11
    let lastBlockSize := address.length % 11
    (blockSizes.idxOf? lastBlockSize).bind fun lastBlockSizeIndex =>
      if numFullBlocks * 8 + lastBlockSizeIndex < kMinDataSize then none
      else blocksLoop lastBlockSize lastBlockSizeIndex numFullBlocks address

def Span.bytes (data : Buffer) (span : Span) : Buffer := (data.drop span.start).take span.size

/-- One read of the chain, whose failure ends it; none where the read has no defined meaning. -/
def field {α : Type} (data : Buffer) (ar : Read α) (self : WalletAddress)
    (next : α → Option (Bool × WalletAddress)) : Option (Bool × WalletAddress) :=
  match (ar.run (source data)).outcome with
  | .ok a => next a
  | .error .undefined => none
  | .error _ => some (false, self)

/-- The fields of an address. What is left before the checksum is skipped, by a length that wraps
when it is less than the checksum. -/
def fields (keccak : Buffer → Hash) (data : Buffer) (self : WalletAddress) :
    Option (Bool × WalletAddress) :=
  field data (BlobReader.getVarint (⟨0⟩ : BlobReader 0 data.length)) self fun (tag, ar) =>
  let self := { self with tag }
  field data (BlobReader.getSpan word64 kKeySize ar) self fun (key, ar) =>
  let self := { self with publicSpendKey := Span.bytes data key }
  field data (BlobReader.getSpan word64 kKeySize ar) self fun (key, ar) =>
  let self := { self with publicViewKey := Span.bytes data key }
  field data (BlobReader.skip word64 (word64 (2 ^ 64 + (data.length - ar.index) - 4)) ar) self
    fun ar =>
  field data (BlobReader.getSpan word64 4 ar) self fun (checksum, _) =>
  let self := { self with checksum := Span.bytes data checksum }
  some (self.checksum = (keccak (data.take (data.length - 4))).bytes.take 4, self)

def decode (keccak : Buffer → Hash) (self : WalletAddress) (address : Buffer) :
    Option (Bool × WalletAddress) :=
  match tfTag address with
  | none => some (false, self)
  | some (tag, address) =>
      match blocks address with
      | none => some (false, self)
      | some data =>
          (fields keccak data self).map fun (matched, self) =>
            if matched then
              (true, { self with data := address, tag := if tag = 0 then self.tag else tag })
            else (false, { self with tag := 0 })

end WalletAddress

end XmrigProxy
