import TokenSale.Codec.Basic

/-!
# Layouts

A layout is the shape of a binary value. Every layout has a type of values and a codec for them, so that what
holds of all codecs is said once, by induction on layouts. A size, such as the length of a list, is a number of 64 bits
and is laid out as one.
-/

namespace TokenSale

/-- The shape of a binary value. -/
inductive Layout
  | byte
  | uint64
  | word
  | address
  | hash
  | list (item : Layout)
  | array (length : Nat) (item : Layout)
deriving DecidableEq

namespace Layout

abbrev Value : Layout → Type
  | byte => UInt8
  | uint64 => UInt64
  | word => Word
  | address => Address
  | hash => Digest
  | list item => List item.Value
  | array length item => Vector item.Value length

def codec : (l : Layout) → Codec l.Value
  | byte => Codec.byte
  | uint64 => Codec.uint64
  | word => Codec.word
  | address => Codec.address
  | hash => Codec.hash
  | list item => Codec.list item.codec
  | array length item => Codec.array length item.codec

end Layout

end TokenSale
