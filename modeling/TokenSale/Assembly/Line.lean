import TokenSale.Assembly.Token
import TokenSale.Fault

/-!
# Lines of assembly

A line that starts with a dot is a directive: `.constants`, which may be followed by constants, or `.source`,
which stands alone. Any other line holds constants when the last directive was `.constants`, and one
instruction otherwise. A line that is refused is refused for its first token that does not fit.
-/

namespace TokenSale.Assembly

/-- What the lines between directives hold. -/
inductive Section
  | code
  | constants
deriving DecidableEq

/-- What a line contributes to a script. -/
inductive Item
  /-- A constant. -/
  | constant (w : Word)
  /-- The start of a source. -/
  | source
  /-- An instruction and its operand. -/
  | instruction (i : Instruction) (operand : UInt8)
deriving DecidableEq

/-- A refusal: the column of a token, and the cause. -/
abbrev Refusal := Nat × AssemblyFault

/-- Reads a constant: a decimal number, or `0x` or `0X` and a hexadecimal one. -/
def constant? (text : String) : Option Word :=
  match text.toList with
  | '0' :: 'x' :: run | '0' :: 'X' :: run => if run = [] then none else Word.ofHexadecimal? run
  | run => Word.ofDecimal? run

def constants : List Token → Except Refusal (List Item)
  | [] => .ok []
  | t :: rest =>
    match constant? t.text with
    | none => .error (t.column, .invalidConstant t.text)
    | some w => (constants rest).map (.constant w :: ·)

def instruction (head : Token) (arguments : List Token) : Except Refusal Item :=
  match Instruction.ofMnemonic? head.text with
  | none => .error (head.column, .unknownInstruction head.text)
  | some i =>
    match i.operandKind.isExplicit, arguments with
    | true, [t] =>
      match i.operandKind.parse? t.text with
      | some operand => .ok (.instruction i operand)
      | none => .error (t.column, .invalidOperand i.operandKind t.text)
    | true, _ => .error (head.column, .missingOperand i)
    | false, [] => .ok (.instruction i 0)
    | false, extra :: _ => .error (extra.column, .unexpectedOperand i)

/-- Reads a directive: the section that follows it, and what it contributes. -/
def directive (head : Token) (arguments : List Token) : Except Refusal (Section × List Item) :=
  if head.text = ".source" then
    match arguments with
    | [] => .ok (.code, [.source])
    | extra :: _ => .error (extra.column, .sourceArgument)
  else if head.text = ".constants" then (constants arguments).map (Section.constants, ·)
  else .error (head.column, .unknownDirective head.text)

/-- Whether a token introduces a directive. -/
def Token.isDirective (t : Token) : Bool := t.text.toList.head? = some '.'

/-- Reads the tokens of a line: the section that follows it, and what it contributes. -/
def line (current : Section) : List Token → Except Refusal (Section × List Item)
  | [] => .ok (current, [])
  | head :: arguments =>
    if head.isDirective then directive head arguments
    else match current with
      | .constants => (constants (head :: arguments)).map (Section.constants, ·)
      | .code => (instruction head arguments).map fun item => (.code, [item])

end TokenSale.Assembly
