import TokenSale.Bytes
import TokenSale.Hash.Keccak
import TokenSale.Text.Hexadecimal

/-!
# SHA3-256 digests

A digest identifies a byte string. It is the start of the Keccak state after the string, padded to blocks of
136 bytes, has been added to the state block by block.
-/

namespace TokenSale

/-- The 32 bytes of a SHA3-256 digest. -/
structure Digest where
  bytes : Vector UInt8 32
deriving DecidableEq

namespace Digest

/-- The number of bytes in a block. -/
def blockSize : Nat := 136

/-- What is put after a message: the domain bits of SHA-3, and a last bit at the end of the block. -/
def padding (length : Nat) : List UInt8 :=
  match blockSize - length % blockSize with
  | 1 => [0x86]
  | gap => 0x06 :: (List.replicate (gap - 2) 0 ++ [0x80])

/-- Adds a block to a state. -/
def addBlock (s : Keccak.State) (block : List UInt8) : Keccak.State :=
  Vector.ofFn fun i : Fin 25 =>
    s.get i ^^^ UInt64.ofNat (Bytes.ofLittleEndian ((block.drop (8 * i.val)).take 8))

/-- Takes blocks into a state, permuting it after each one. -/
def absorb (s : Keccak.State) (bytes : List UInt8) : Keccak.State :=
  if bytes = [] then s
  else absorb (Keccak.permute (addBlock s (bytes.take blockSize))) (bytes.drop blockSize)
termination_by bytes.length
decreasing_by
  rename_i h
  have := List.length_pos_iff.2 h
  simp only [List.length_drop, blockSize]
  omega

/-- The digest of a byte string. -/
def ofBytes (message : List UInt8) : Digest :=
  let s := absorb Keccak.State.zero (message ++ padding message.length)
  ⟨Vector.ofFn fun i : Fin 32 =>
    (s[i.val / 8] >>> UInt64.ofNat (8 * (i.val % 8))).toUInt8⟩

/-- The bytes as a list. -/
def toList (d : Digest) : List UInt8 := d.bytes.toList

def text (d : Digest) : String := Hexadecimal.ofBytes d.toList

/-- The first four bytes in hexadecimal digits. -/
def shortText (d : Digest) : String := Hexadecimal.ofBytes (d.toList.take 4)

end Digest

end TokenSale
