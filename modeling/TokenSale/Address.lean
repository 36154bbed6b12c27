import TokenSale.Hash.Digest
import TokenSale.Word

/-!
# Addresses

An address names a buyer, a recipient, a token or a tier source. It is a number below `2 ^ 160`; a script sees
it as a word, and any word names the address that its low 160 bits spell.
-/

namespace TokenSale

/-- The number of addresses, `2 ^ 160`. -/
abbrev Address.size : Nat := 0x1_00000000_00000000_00000000_00000000_00000000

/-- A number below `2 ^ 160` that names an account. -/
@[ext] structure Address where
  toNat : Nat
  toNat_lt : toNat < Address.size
deriving DecidableEq

/-- Why a text is no address. -/
inductive AddressError
  | malformed (input : String)
deriving DecidableEq

def AddressError.message : AddressError → String
  | malformed input => s!"address must be 0x followed by 40 hex digits, got {input}"

namespace Address

def zero : Address := ⟨0, by decide⟩

instance : Inhabited Address := ⟨zero⟩

/-- The address that the low 160 bits of a number spell. -/
def truncate (n : Nat) : Address := ⟨n % size, Nat.mod_lt _ (by decide)⟩

def toWord (a : Address) : Word := ⟨a.toNat, Nat.lt_trans a.toNat_lt (by decide)⟩

/-- The address that the low 160 bits of a word spell. -/
def ofWord (w : Word) : Address := truncate w.toNat

@[simp] theorem ofWord_toWord (a : Address) : ofWord a.toWord = a :=
  Address.ext (Nat.mod_eq_of_lt a.toNat_lt)

/-- The 20 bytes of an address, the most significant first. -/
def toBytes (a : Address) : List UInt8 := (Bytes.littleEndian 20 a.toNat).reverse

/-- The address of bytes, the most significant first. -/
def ofBytes (bytes : List UInt8) : Address := truncate (Bytes.ofLittleEndian bytes.reverse)

/-- The address derived from a seed: the last 20 bytes of its digest. -/
def derive (seed : List UInt8) : Address := ofBytes ((Digest.ofBytes seed).toList.drop 12)

/-! ## Text -/

/-- The characters of an address: `0x` and 40 lower-case digits. -/
def chars (a : Address) : List Char := '0' :: 'x' :: Hexadecimal.digits 40 a.toNat

def text (a : Address) : String := String.ofList a.chars

instance : ToString Address := ⟨text⟩

/-- The byte that two characters write: two digits, or a plus sign and one digit. -/
def pair? (high low : Char) : Option Nat :=
  (Hexadecimal.digit? low).bind fun l =>
    if high = '+' then some l else (Hexadecimal.digit? high).map (16 * · + l)

/-- The number that pairs of characters write after the bytes that make `n`. -/
def pairs? (n : Nat) : List Char → Option Nat
  | [] => some n
  | [_] => none
  | high :: low :: rest => (pair? high low).bind fun byte => pairs? (256 * n + byte) rest

/-- The number of an address, if the characters write one. -/
def ofChars? : List Char → Option Address
  | '0' :: 'x' :: run => if run.length = 40 then (pairs? 0 run).map truncate else none
  | _ => none

def ofText (input : String) : Except AddressError Address :=
  match ofChars? input.toList with
  | some a => .ok a
  | none => .error (.malformed input)

end Address

end TokenSale
