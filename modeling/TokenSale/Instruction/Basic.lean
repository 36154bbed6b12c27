import TokenSale.Instruction.Aggregate
import TokenSale.Instruction.OperandKind

/-!
# Instructions

An instruction is written in two bytes: its opcode and its operand. The table of instructions gives each one an
opcode, a mnemonic, the kind of its operand and the number of values it consumes; every instruction leaves one
value.
-/

namespace TokenSale

/-- A comparison of two values. -/
inductive Relation
  | equal | less | greater
deriving DecidableEq

/-- Whether two values stand in a relation. -/
def Relation.holds (r : Relation) (a b : Word) : Bool :=
  match r with
  | equal => decide (a = b)
  | less => decide (a < b)
  | greater => decide (b < a)

/-- How many values an instruction consumes: a fixed number, or as many as its operand says. -/
inductive Arity
  | fixed (n : Nat)
  | operand
deriving DecidableEq

/-- The number of values consumed with a given operand. -/
def Arity.inputs : Arity → UInt8 → Nat
  | fixed n, _ => n
  | operand, b => b.toNat

/-- An instruction. -/
inductive Instruction
  /-- Loads a constant of the script. -/
  | constant
  /-- Copies a value from a position in the stack. -/
  | stack
  /-- Loads a value of the context. -/
  | context
  /-- Reads a counter of the sale. -/
  | storage
  /-- Loads the present time. -/
  | blockTimestamp
  /-- Reads how many units an account ever minted. -/
  | numberMinted
  /-- Replaces as many values as the operand says by their aggregate. -/
  | aggregate (op : Aggregate)
  /-- Whether a value is zero. -/
  | isZero
  /-- Whether two values stand in a relation. -/
  | compare (r : Relation)
  /-- Chooses one of two values, both of which are there already. -/
  | eagerIf
  /-- Compares the present time with a value. -/
  | timeCmp
  /-- Whether the present time lies between two values, ends included. -/
  | betweenTimestamps
  /-- The tier level of an account at a tier source. -/
  | tierLevel
  /-- Whether the tier level of an account reaches the operand. -/
  | hasMinTier
deriving DecidableEq

namespace Instruction

/-- The instructions in the order of the table. -/
def all : List Instruction :=
  [constant, stack, context, storage, blockTimestamp, numberMinted,
    aggregate .add, aggregate .saturatingAdd, aggregate .sub, aggregate .mul, aggregate .saturatingMul,
    aggregate .div, aggregate .mod, aggregate .exp, aggregate .min, aggregate .max,
    isZero, compare .equal, compare .less, compare .greater, aggregate .every, aggregate .any, eagerIf,
    timeCmp, betweenTimestamps, tierLevel, hasMinTier]

/-- The byte that stands for an instruction. -/
def opcode : Instruction → UInt8
  | constant => 0x00
  | stack => 0x01
  | context => 0x02
  | storage => 0x03
  | blockTimestamp => 0x04
  | numberMinted => 0x05
  | aggregate .add => 0x10
  | aggregate .saturatingAdd => 0x11
  | aggregate .sub => 0x12
  | aggregate .mul => 0x13
  | aggregate .saturatingMul => 0x14
  | aggregate .div => 0x15
  | aggregate .mod => 0x16
  | aggregate .exp => 0x17
  | aggregate .min => 0x18
  | aggregate .max => 0x19
  | isZero => 0x20
  | compare .equal => 0x21
  | compare .less => 0x22
  | compare .greater => 0x23
  | aggregate .every => 0x24
  | aggregate .any => 0x25
  | eagerIf => 0x26
  | timeCmp => 0x30
  | betweenTimestamps => 0x31
  | tierLevel => 0x40
  | hasMinTier => 0x41

/-- The name in assembly and in messages. -/
def mnemonic : Instruction → String
  | constant => "CONSTANT"
  | stack => "STACK"
  | context => "CONTEXT"
  | storage => "STORAGE"
  | blockTimestamp => "BLOCK_TIMESTAMP"
  | numberMinted => "NUMBER_MINTED"
  | aggregate .add => "ADD"
  | aggregate .saturatingAdd => "SATURATING_ADD"
  | aggregate .sub => "SUB"
  | aggregate .mul => "MUL"
  | aggregate .saturatingMul => "SATURATING_MUL"
  | aggregate .div => "DIV"
  | aggregate .mod => "MOD"
  | aggregate .exp => "EXP"
  | aggregate .min => "MIN"
  | aggregate .max => "MAX"
  | isZero => "ISZERO"
  | compare .equal => "EQUAL_TO"
  | compare .less => "LESS_THAN"
  | compare .greater => "GREATER_THAN"
  | aggregate .every => "EVERY"
  | aggregate .any => "ANY"
  | eagerIf => "EAGER_IF"
  | timeCmp => "TIME_CMP"
  | betweenTimestamps => "BETWEEN_TIMESTAMPS"
  | tierLevel => "TIER_LEVEL"
  | hasMinTier => "HAS_MIN_TIER"

/-- What the operand means. -/
def operandKind : Instruction → OperandKind
  | constant => .constant
  | stack => .stackIndex
  | context => .contextIndex
  | storage => .slot
  | aggregate _ => .count
  | timeCmp => .comparator
  | hasMinTier => .tier
  | blockTimestamp | numberMinted | isZero | compare _ | eagerIf | betweenTimestamps | tierLevel => .unused

/-- How many values are consumed. -/
def arity : Instruction → Arity
  | constant | stack | context | storage | blockTimestamp => .fixed 0
  | numberMinted | isZero | timeCmp => .fixed 1
  | compare _ | betweenTimestamps | tierLevel | hasMinTier => .fixed 2
  | eagerIf => .fixed 3
  | aggregate _ => .operand

/-- How many values are left in their place. -/
def outputs (_ : Instruction) : Nat := 1

/-- How many bytes an instruction takes up. -/
def width : Nat := 2

def ofOpcode? (b : UInt8) : Option Instruction := all.find? (·.opcode == b)

def ofMnemonic? (text : String) : Option Instruction := all.find? (·.mnemonic == text)

/-- Every instruction is in the table. -/
theorem mem_all (i : Instruction) : i ∈ all := by
  cases i with
  | aggregate op => cases op <;> decide
  | compare r => cases r <;> decide
  | _ => decide

@[simp] theorem ofOpcode?_opcode (i : Instruction) : ofOpcode? i.opcode = some i := by
  have : ∀ j ∈ all, ofOpcode? j.opcode = some j := by decide
  exact this i (mem_all i)

@[simp] theorem ofMnemonic?_mnemonic (i : Instruction) : ofMnemonic? i.mnemonic = some i := by
  have : ∀ j ∈ all, ofMnemonic? j.mnemonic = some j := by decide
  exact this i (mem_all i)

/-- Only its own opcode stands for an instruction. -/
theorem opcode_of_ofOpcode? {b : UInt8} {i : Instruction} (h : ofOpcode? b = some i) : i.opcode = b := by
  simpa using List.find?_some h

/-- Only its own mnemonic names an instruction. -/
theorem mnemonic_of_ofMnemonic? {text : String} {i : Instruction} (h : ofMnemonic? text = some i) :
    i.mnemonic = text := by
  simpa using List.find?_some h

end Instruction

end TokenSale
