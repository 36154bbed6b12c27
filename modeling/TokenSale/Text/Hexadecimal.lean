/-!
# Hexadecimal numerals

Digits are written in lower case and read in either case, the most significant first. `digits width` writes
exactly `width` of them, `value?` reads any run, and `ofBytes` writes a byte string with two digits a byte.
-/

namespace TokenSale.Hexadecimal

/-- The lower-case digit of a number below sixteen. -/
def digitChar (n : Nat) : Char := Nat.digitChar n

/-- The value of a hexadecimal digit of either case. -/
def digit? (c : Char) : Option Nat :=
  if '0' ≤ c ∧ c ≤ '9' then some (c.toNat - '0'.toNat)
  else if 'a' ≤ c ∧ c ≤ 'f' then some (c.toNat - 'a'.toNat + 10)
  else if 'A' ≤ c ∧ c ≤ 'F' then some (c.toNat - 'A'.toNat + 10)
  else none

/-- The last `width` hexadecimal digits of a number. -/
def digits : (width : Nat) → Nat → List Char
  | 0, _ => []
  | width + 1, n => digits width (n / 16) ++ [digitChar (n % 16)]

/-- The number that a run of digits denotes. The empty run denotes zero; anything but a digit is refused. -/
def value? (cs : List Char) : Option Nat :=
  cs.foldlM (fun n c => (digit? c).map (16 * n + ·)) 0

/-- Two lower-case digits a byte. -/
def ofBytes (bytes : List UInt8) : String :=
  String.ofList (bytes.flatMap fun b => digits 2 b.toNat)

theorem length_digits (width n : Nat) : (digits width n).length = width := by
  induction width generalizing n with
  | zero => rfl
  | succ width ih => simp [digits, ih]

@[simp] theorem value?_nil : value? [] = some 0 := rfl

theorem value?_concat (cs : List Char) (c : Char) :
    value? (cs ++ [c]) = (value? cs).bind fun n => (digit? c).map (16 * n + ·) := by
  simp [value?, List.foldlM_append]

/-- Every number below sixteen is read back from its digit. -/
theorem digit?_digitChar {n : Nat} (h : n < 16) : digit? (digitChar n) = some n := by
  have : ∀ m : Fin 16, digit? (digitChar m.val) = some m.val := by decide
  exact this ⟨n, h⟩

end TokenSale.Hexadecimal
