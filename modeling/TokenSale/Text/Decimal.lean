/-!
# Decimal numerals

Digits are the ten ASCII digits, the most significant first. `digits` writes a number without leading
zeros, `value?` reads any run of digits, and `natural?` reads the numerals of bounded unsigned numbers,
which may carry a plus sign.
-/

namespace TokenSale.Decimal

def digit? (c : Char) : Option Nat :=
  if '0' ≤ c ∧ c ≤ '9' then some (c.toNat - '0'.toNat) else none

def digits (n : Nat) : List Char := Nat.toDigits 10 n

/-- The number that a run of digits denotes. The empty run denotes zero; anything but a digit is refused. -/
def value? (cs : List Char) : Option Nat :=
  cs.foldlM (fun n c => (digit? c).map (10 * n + ·)) 0

/-- Reads an unsigned number below `bound`: at least one digit, after at most one plus sign. -/
def natural? (bound : Nat) (cs : List Char) : Option Nat :=
  let run := match cs with
    | '+' :: rest => rest
    | _ => cs
  if run = [] then none else (value? run).filter (· < bound)

@[simp] theorem value?_nil : value? [] = some 0 := rfl

/-- A further digit multiplies by ten and adds. -/
theorem value?_concat (cs : List Char) (c : Char) :
    value? (cs ++ [c]) = (value? cs).bind fun n => (digit? c).map (10 * n + ·) := by
  simp [value?, List.foldlM_append]

end TokenSale.Decimal
