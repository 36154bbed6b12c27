import TokenSale.Machine.Stack
import TokenSale.Script.Basic

/-!
# Static analysis

The effect of a source on the depth of the stack, found without running it. An instruction that would fail in every run
is refused; how many values the context must have is reported. A byte alone at the end of a source is not looked at.
-/

namespace TokenSale

/-- The effect of code on the stack. -/
structure Summary where
  /-- The number of instructions. -/
  instructions : Nat
  /-- The number of values left at the end. -/
  finalDepth : Nat
  /-- The greatest number of values after any instruction. -/
  maxDepth : Nat
  /-- The least length of a context that all reads of the context fall into. -/
  contextLen : Nat
deriving DecidableEq

namespace Summary

def empty : Summary := ⟨0, 0, 0, 0⟩

/-- What is wrong with an operand, whatever the inputs of the script are. -/
def operandFault? (constants depth : Nat) (kind : OperandKind) (operand : UInt8) (offset : Nat) :
    Option Fault :=
  match kind with
  | .constant =>
    if operand.toNat < constants then none
    else some (.constantOutOfBounds offset operand constants)
  | .stackIndex =>
    if operand.toNat < depth then none else some (.stackReadOutOfBounds offset operand depth)
  | .slot =>
    if (Slot.ofCode? operand).isSome then none else some (.invalidStorageSlot offset operand)
  | .comparator =>
    if (Comparator.ofCode? operand).isSome then none else some (.invalidComparator offset operand)
  | .unused | .contextIndex | .count | .tier => none

/-- The length of a context that an operand asks for. -/
def contextNeeded (kind : OperandKind) (operand : UInt8) : Nat :=
  if kind = .contextIndex then operand.toNat + 1 else 0

/-- The effect of code followed by one more instruction. -/
def step (constants : Nat) (s : Summary) (i : Instruction) (operand : UInt8) (offset : Nat) :
    Except Fault Summary :=
  let site : Site := ⟨i.mnemonic, offset⟩
  let required := i.arity.inputs operand
  let depth := s.finalDepth - required + i.outputs
  if i.arity = .operand ∧ operand = 0 then .error (.invalidOperandCount site operand)
  else match operandFault? constants s.finalDepth i.operandKind operand offset with
    | some fault => .error fault
    | none =>
      if s.finalDepth < required then .error (.stackUnderflow site required s.finalDepth)
      else if Stack.limit < depth then .error (.stackOverflow site Stack.limit)
      else .ok
        { instructions := s.instructions + 1
          finalDepth := depth
          maxDepth := max s.maxDepth depth
          contextLen := max s.contextLen (contextNeeded i.operandKind operand) }

/-- The effect of code that stands at an offset, after code with the effect `s`. -/
def extend (constants : Nat) (s : Summary) (offset : Nat) : List UInt8 → Except Fault Summary
  | opcode :: operand :: rest =>
    match Instruction.ofOpcode? opcode with
    | none => .error (.invalidInstruction opcode offset)
    | some i =>
      match step constants s i operand offset with
      | .error fault => .error fault
      | .ok t => extend constants t (offset + Instruction.width) rest
  | _ => .ok s

end Summary

/-- The effect of a source on the stack. -/
def RawScript.analyze (s : RawScript) (source : Nat) : Except Fault Summary := do
  let code ← s.source source
  Summary.extend s.constants.length .empty 0 code

end TokenSale
