import TokenSale.Script.Basic

/-!
# Listings

The assembly of a script: its constants one a line, then every source, one instruction a line. Comments number
the constants and the sources.
-/

namespace TokenSale.Assembly

/-- Puts blanks after a text until it has `width` characters. -/
def padRight (width : Nat) (text : String) : String :=
  String.ofList (text.toList ++ List.replicate (width - text.length) ' ')

/-- A constant in its column. Zero alone is not followed by blanks. -/
def constantColumn (w : Word) : String :=
  if w = 0 then toString w else padRight 24 (toString w)

/-- The lines of constants, the first of which has the index `index`. -/
def constantLines (index : Nat) : List Word → List String
  | [] => []
  | w :: rest => s!"{constantColumn w} # {index}" :: constantLines (index + 1) rest

def instructionLine (i : Instruction) (operand : UInt8) : String :=
  if i.operandKind.isExplicit then s!"{i.mnemonic} {i.operandKind.render operand}" else i.mnemonic

/-- The lines of code that stands at an offset. -/
def codeLines (offset : Nat) : List UInt8 → Except Fault (List String)
  | opcode :: operand :: rest =>
    match Instruction.ofOpcode? opcode with
    | none => .error (.invalidInstruction opcode offset)
    | some i => (codeLines (offset + Instruction.width) rest).map (instructionLine i operand :: ·)
  | _ => .ok []

/-- The lines of sources, the first of which has the index `index`. -/
def sourceLines (index : Nat) : List (List UInt8) → Except Fault (List String)
  | [] => .ok []
  | code :: rest => do
    let here ← codeLines 0 code
    let more ← sourceLines (index + 1) rest
    pure (s!".source # {index}" :: here ++ more)

/-- The lines of the assembly of a script. -/
def listing (s : RawScript) : Except Fault (List String) :=
  (sourceLines 0 s.sources).map fun below =>
    (if s.constants = [] then [] else ".constants" :: constantLines 0 s.constants) ++ below

def disassemble (s : RawScript) : Except Fault String :=
  (listing s).map fun lines => String.join (lines.map (· ++ "\n"))

end TokenSale.Assembly
