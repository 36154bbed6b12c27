import TokenSale.Codec.Basic
import TokenSale.Instruction.Basic

/-!
# Faults

What can be wrong with a script: with its shape, its bytes or its text, and what can go wrong when it runs. A
fault is a cause; `Fault.message` is the only place where causes become text.
-/

namespace TokenSale

/-- Where an instruction stands. -/
structure Site where
  mnemonic : String
  /-- The offset of the opcode in its source. -/
  offset : Nat
deriving DecidableEq

/-- Why bytes are no script. -/
inductive BinaryFault
  | truncated
  | badMagic
  | unsupportedVersion
  | trailingBytes
  | decode (cause : DecodeError)
deriving DecidableEq

def BinaryFault.message : BinaryFault → String
  | truncated => "truncated"
  | badMagic => "bad magic"
  | unsupportedVersion => "unsupported version"
  | trailingBytes => "trailing bytes"
  | decode cause => cause.message

/-- Why a line of assembly is refused. -/
inductive AssemblyFault
  | sourceArgument
  | unknownDirective (token : String)
  | invalidConstant (token : String)
  | unknownInstruction (token : String)
  | missingOperand (instruction : Instruction)
  | unexpectedOperand (instruction : Instruction)
  | invalidOperand (kind : OperandKind) (token : String)
deriving DecidableEq

def AssemblyFault.message : AssemblyFault → String
  | sourceArgument => ".source takes no arguments"
  | unknownDirective token => s!"unknown directive '{token}'"
  | invalidConstant token => s!"invalid constant '{token}'"
  | unknownInstruction token => s!"unknown instruction '{token}'"
  | missingOperand i => s!"{i.mnemonic} expects one {i.operandKind.describe} operand"
  | unexpectedOperand i => s!"{i.mnemonic} takes no operand"
  | invalidOperand kind token => kind.invalidMessage token

/-- Why a file cannot be read or written. -/
inductive FileFault
  | notFound
  | isDirectory
  | notDirectory
  | nameTooLong
  /-- The path holds the character that ends a text for the system. -/
  | nulCharacter
  | invalidText
  | other (text : String)
deriving DecidableEq

def FileFault.message : FileFault → String
  | notFound => "No such file or directory (os error 2)"
  | isDirectory => "Is a directory (os error 21)"
  | notDirectory => "Not a directory (os error 20)"
  | nameTooLong => "File name too long (os error 36)"
  | nulCharacter => "file name contained an unexpected NUL byte"
  | invalidText => "stream did not contain valid UTF-8"
  | other text => text

/-- What is wrong with a script. -/
inductive Fault
  /-- No instruction has the opcode. -/
  | invalidInstruction (opcode : UInt8) (offset : Nat)
  /-- A source ends between an opcode and its operand. -/
  | unexpectedEnd (source offset : Nat)
  | missingSource (index available : Nat)
  | tooManyConstants (count max : Nat)
  | stackUnderflow (site : Site) (required available : Nat)
  | stackOverflow (site : Site) (limit : Nat)
  /-- An instruction was to consume no values at all. -/
  | invalidOperandCount (site : Site) (operand : UInt8)
  | constantOutOfBounds (offset : Nat) (index : UInt8) (available : Nat)
  | stackReadOutOfBounds (offset : Nat) (index : UInt8) (depth : Nat)
  | contextOutOfBounds (offset : Nat) (index : UInt8) (available : Nat)
  | invalidStorageSlot (offset : Nat) (slot : UInt8)
  | invalidComparator (offset : Nat) (operand : UInt8)
  | arithmeticOverflow (site : Site)
  | divisionByZero (site : Site)
  /-- A run left another number of values than expected. -/
  | outputMismatch (expected actual : Nat)
  | stepLimitExceeded (limit : Nat)
  | sourceTooLong (instructions limit : Nat)
  | binary (cause : BinaryFault)
  | assembly (line column : Nat) (cause : AssemblyFault)
  | file (path : String) (cause : FileFault)
deriving DecidableEq

namespace Fault

def message : Fault → String
  | invalidInstruction opcode offset =>
    s!"invalid instruction 0x{Hexadecimal.ofBytes [opcode]} at offset {offset}"
  | unexpectedEnd source offset =>
    s!"source {source} ends in the middle of an instruction at offset {offset}"
  | missingSource index available => s!"source {index} does not exist (script has {available})"
  | tooManyConstants count max => s!"script declares {count} constants, at most {max} are addressable"
  | stackUnderflow site required available =>
    s!"{site.mnemonic} at offset {site.offset} needs {required} stack items, found {available}"
  | stackOverflow site limit =>
    s!"{site.mnemonic} at offset {site.offset} exceeds the stack limit of {limit}"
  | invalidOperandCount site operand =>
    s!"{site.mnemonic} at offset {site.offset} has operand count {operand.toNat}"
  | constantOutOfBounds offset index available =>
    s!"constant {index.toNat} at offset {offset} is out of bounds (pool has {available})"
  | stackReadOutOfBounds offset index depth =>
    s!"stack read {index.toNat} at offset {offset} is out of bounds (depth {depth})"
  | contextOutOfBounds offset index available =>
    s!"context slot {index.toNat} at offset {offset} is out of bounds (context has {available})"
  | invalidStorageSlot offset slot => s!"unknown storage slot {slot.toNat} at offset {offset}"
  | invalidComparator offset operand => s!"unknown time comparator {operand.toNat} at offset {offset}"
  | arithmeticOverflow site => s!"{site.mnemonic} at offset {site.offset} overflowed"
  | divisionByZero site => s!"{site.mnemonic} at offset {site.offset} divided by zero"
  | outputMismatch expected actual => s!"script leaves {actual} values on the stack, expected {expected}"
  | stepLimitExceeded limit => s!"evaluation exceeded the step limit of {limit}"
  | sourceTooLong instructions limit =>
    s!"source has {instructions} instructions, over the step limit of {limit}"
  | binary cause => s!"decoding error: {cause.message}"
  | assembly line column cause => s!"line {line}, column {column}: {cause.message}"
  | file path cause => s!"io error on {path}: {cause.message}"

/-- The fault of an arithmetic mishap in an instruction. -/
def ofMishap (site : Site) : Mishap → Fault
  | .overflow => arithmeticOverflow site
  | .zeroDivisor => divisionByZero site

end Fault

end TokenSale
