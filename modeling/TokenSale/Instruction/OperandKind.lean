import TokenSale.Instruction.Comparator
import TokenSale.Instruction.Slot
import TokenSale.Text.Decimal

/-!
# Operand kinds

An instruction has one operand byte. Its kind says what the byte means and how assembly writes it: as a
number, or as a name where the byte stands for a slot or a comparator.
-/

namespace TokenSale

/-- What an operand byte means. -/
inductive OperandKind
  /-- Nothing; assembly does not write it. -/
  | unused
  /-- An index into the constants. -/
  | constant
  /-- A position in the stack, counted from the bottom. -/
  | stackIndex
  /-- An index into the context. -/
  | contextIndex
  /-- The code of a slot. -/
  | slot
  /-- How many values the instruction consumes. -/
  | count
  /-- The code of a comparator. -/
  | comparator
  /-- A least tier level. -/
  | tier
deriving DecidableEq

namespace OperandKind

/-- Whether assembly writes the operand. -/
def isExplicit (k : OperandKind) : Bool := k != unused

/-- What the operand is called in messages. -/
def describe : OperandKind → String
  | unused => "unused"
  | constant => "constant index"
  | stackIndex => "stack index"
  | contextIndex => "context index"
  | slot => "storage slot"
  | count => "value count"
  | comparator => "comparator"
  | tier => "tier"

/-- The code of a name, for the kinds that have names. -/
def named? (k : OperandKind) (token : String) : Option UInt8 :=
  match k with
  | slot => (Slot.ofName? token).map Slot.code
  | comparator => (Comparator.ofName? token).map Comparator.code
  | _ => none

/-- The name of a code, for the kinds that have names. -/
def name? (k : OperandKind) (operand : UInt8) : Option String :=
  match k with
  | slot => (Slot.ofCode? operand).map Slot.name
  | comparator => (Comparator.ofCode? operand).map Comparator.name
  | _ => none

/-- Reads an operand: a name of the kind, or a number below 256. -/
def parse? (k : OperandKind) (token : String) : Option UInt8 :=
  (k.named? token).or ((Decimal.natural? 256 token.toList).map UInt8.ofNat)

/-- Writes an operand by its name if it has one, else as a number. -/
def render (k : OperandKind) (operand : UInt8) : String :=
  (k.name? operand).getD (toString operand.toNat)

/-- The message for a token that is no operand of the kind. -/
def invalidMessage (k : OperandKind) (token : String) : String :=
  s!"invalid {k.describe} operand '{token}'"

end OperandKind

end TokenSale
