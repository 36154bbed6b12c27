import TokenSale.Address
import TokenSale.Bytes

/-!
# Binary codecs

A codec writes values as bytes and reads them back from the front of a byte string. Numbers have a fixed
width, a list carries its length, and an array of a fixed length is written item after item.
-/

namespace TokenSale

/-- Why bytes cannot be read. -/
inductive DecodeError
  | unexpectedEnd
  | invalidValue
  | lengthOverflow
deriving DecidableEq

def DecodeError.message : DecodeError → String
  | unexpectedEnd => "unexpected end of input"
  | invalidValue => "invalid value"
  | lengthOverflow => "length prefix too large"

/-- A way to write an `α` as bytes, and to read one from the front of a byte string. -/
structure Codec (α : Type) where
  encode : α → List UInt8
  /-- Reads a value and what follows it. -/
  decode : List UInt8 → Except DecodeError (α × List UInt8)

namespace Codec

variable {α β : Type}

/-- Reads a value that takes up all of the input. -/
def decodeAll (c : Codec α) (input : List UInt8) : Except DecodeError α := do
  let (a, rest) ← c.decode input
  if rest = [] then pure a else throw .invalidValue

/-- How many bytes a value takes up. -/
def size (c : Codec α) (a : α) : Nat := (c.encode a).length

/-- The digest of a value as it is written. -/
def digest (c : Codec α) (a : α) : Digest := Digest.ofBytes (c.encode a)

/-! ## Fixed widths -/

/-- The first `n` bytes and what follows them. -/
def takeBytes : (n : Nat) → List UInt8 → Except DecodeError (List UInt8 × List UInt8)
  | 0, input => .ok ([], input)
  | _ + 1, [] => .error .unexpectedEnd
  | n + 1, b :: input =>
    match takeBytes n input with
    | .ok (bytes, rest) => .ok (b :: bytes, rest)
    | .error e => .error e

/-- The codec of a type whose values are written as `width` bytes. -/
def fixed (width : Nat) (toBytes : α → List UInt8) (ofBytes : List UInt8 → α) : Codec α where
  encode := toBytes
  decode input :=
    match takeBytes width input with
    | .ok (bytes, rest) => .ok (ofBytes bytes, rest)
    | .error e => .error e

/-- One byte. -/
def byte : Codec UInt8 := fixed 1 (fun b => [b]) fun bytes => bytes.headD 0

/-- Eight bytes, the least significant first. -/
def uint64 : Codec UInt64 :=
  fixed 8 (fun n => Bytes.littleEndian 8 n.toNat) fun bytes => UInt64.ofNat (Bytes.ofLittleEndian bytes)

/-- Thirty-two bytes, the least significant first. -/
def word : Codec Word :=
  fixed 32 (fun w => Bytes.littleEndian 32 w.toNat) fun bytes =>
    ⟨Bytes.ofLittleEndian bytes % Word.size, Nat.mod_lt _ (by decide)⟩

def address : Codec Address := fixed 20 Address.toBytes Address.ofBytes

def hash : Codec Digest :=
  fixed 32 Digest.toList fun bytes => ⟨Vector.ofFn fun i : Fin 32 => bytes.getD i.val 0⟩

/-! ## Compounds -/

/-- Two values, one after the other. -/
def pair (c : Codec α) (d : Codec β) : Codec (α × β) where
  encode p := c.encode p.1 ++ d.encode p.2
  decode input := do
    let (a, input) ← c.decode input
    let (b, input) ← d.decode input
    pure ((a, b), input)

/-- Reads `n` values. -/
def decodeMany (c : Codec α) : (n : Nat) → List UInt8 → Except DecodeError (List α × List UInt8)
  | 0, input => .ok ([], input)
  | n + 1, input => do
    let (a, input) ← c.decode input
    let (more, input) ← decodeMany c n input
    pure (a :: more, input)

/-- The greatest length of a list that is read. -/
def maxLength : Nat := 1000000

/-- A list: its length in eight bytes, then its items. Lists longer than `maxLength` are not read. -/
def list (c : Codec α) : Codec (List α) where
  encode items := uint64.encode (UInt64.ofNat items.length) ++ items.flatMap c.encode
  decode input := do
    let (length, input) ← uint64.decode input
    if maxLength < length.toNat then throw .lengthOverflow else decodeMany c length.toNat input

/-- A list of a length that is known: its items. -/
def array (n : Nat) (c : Codec α) : Codec (Vector α n) where
  encode items := items.toList.flatMap c.encode
  decode input := do
    let (items, input) ← decodeMany c n input
    if h : items.length = n then pure (⟨items.toArray, h⟩, input) else throw .invalidValue

end Codec

end TokenSale
