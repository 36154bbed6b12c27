import TokenSale.Script.Basic

/-!
# The binary format of scripts

Five bytes of magic, three of version, the sources and the constants. The digest of the sources and constants
alone identifies a script. The codec reads raw scripts; their shape is checked after it.
-/

namespace TokenSale

namespace Script

/-- The bytes that every binary script starts with. -/
def magic : List UInt8 := [0x4D, 0x53, 0x43, 0x50, 0x54]

/-- The version of the format. -/
def version : List UInt8 := [1, 0, 0]

/-- The codec of the sources and the constants. -/
def parts : Codec (List (List UInt8) × List Word) :=
  .pair (.list (.list .byte)) (.list .word)

end Script

namespace RawScript

/-- The codec of raw scripts: their sources, then their constants. -/
def codec : Codec RawScript where
  encode s := Script.parts.encode (s.sources, s.constants)
  decode input := do
    let ((sources, constants), rest) ← Script.parts.decode input
    pure (⟨sources, constants⟩, rest)

/-- The binary form of a script. -/
def toBytes (s : RawScript) : List UInt8 := Script.magic ++ Script.version ++ codec.encode s

def id (s : RawScript) : Digest := codec.digest s

end RawScript

namespace Script

/-- Renames a failure to decode. -/
def orFault {α : Type} : Except DecodeError α → Except Fault α
  | .ok a => .ok a
  | .error e => .error (.binary (.decode e))

/-- Reads the version, the sources and the constants, and checks their shape. -/
def bodyOfBytes (input : List UInt8) : Except Fault Script := do
  let (found, input) ← orFault (Codec.takeBytes version.length input)
  if found ≠ version then throw (.binary .unsupportedVersion)
  let (raw, rest) ← orFault (RawScript.codec.decode input)
  if rest ≠ [] then throw (.binary .trailingBytes)
  ofParts raw.sources raw.constants

/-- Whether bytes start with the magic of a binary script. -/
def hasMagic (input : List UInt8) : Bool := input.take magic.length = magic

/-- Reads the binary form of a script. -/
def ofBytes (input : List UInt8) : Except Fault Script :=
  if input.length < magic.length then .error (.binary .truncated)
  else if hasMagic input then bodyOfBytes (input.drop magic.length)
  else .error (.binary .badMagic)

end Script

end TokenSale
