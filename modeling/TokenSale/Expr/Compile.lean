import TokenSale.Expr.Basic
import TokenSale.Script.Analysis

/-!
# Compiling expressions

An expression becomes a fragment: operations that leave exactly its value on the stack. The literals of all
fragments are gathered in the constants of the script, each once and in the order of first use. An aggregate of
more values than an operand can count is built up in rounds, the value so far being the first of the next
round.
-/

namespace TokenSale

/-- One operation of a fragment. -/
inductive Operation
  /-- Loads a literal. -/
  | literal (w : Word)
  | instruction (i : Instruction) (operand : UInt8)
deriving DecidableEq

namespace Expr

/-- The most values that an operand can count. -/
def maxCount : Nat := 255

/-- The operations that aggregate the values of fragments, when `pending` values are there already. -/
def aggregateAll (op : Aggregate) (pending : Nat) : List (List Operation) → List Operation
  | [] => [.instruction (.aggregate op) (UInt8.ofNat pending)]
  | fragment :: rest =>
    if pending + 1 = maxCount ∧ rest ≠ [] then
      fragment ++ .instruction (.aggregate op) (UInt8.ofNat maxCount) :: aggregateAll op 1 rest
    else fragment ++ aggregateAll op (pending + 1) rest

mutual

/-- The operations of an expression. -/
def fragment : Expr → List Operation
  | constant w => [.literal w]
  | context index => [.instruction .context index]
  | stack index => [.instruction .stack index]
  | storage slot => [.instruction .storage slot.code]
  | blockTimestamp => [.instruction .blockTimestamp 0]
  | numberMinted account => fragment account ++ [.instruction .numberMinted 0]
  | aggregate op operands => aggregateAll op 0 (fragments operands)
  | isZero value => fragment value ++ [.instruction .isZero 0]
  | compare r a b => fragment a ++ fragment b ++ [.instruction (.compare r) 0]
  | ifElse condition chosen otherwise =>
    fragment condition ++ fragment chosen ++ fragment otherwise ++ [.instruction .eagerIf 0]
  | timeCmp time c => [.literal (.ofUInt64 time), .instruction .timeCmp c.code]
  | between first last =>
    [.literal (.ofUInt64 first), .literal (.ofUInt64 last), .instruction .betweenTimestamps 0]
  | tierLevel source account =>
    fragment account ++ [.literal source.toWord, .instruction .tierLevel 0]
  | hasMinTier source account least =>
    fragment account ++ [.literal source.toWord, .instruction .hasMinTier least]

/-- The operations of each of several expressions. -/
def fragments : List Expr → List (List Operation)
  | [] => []
  | e :: rest => fragment e :: fragments rest

end

/-- The literals of operations. -/
def literals (ops : List Operation) : List Word :=
  ops.filterMap fun
    | .literal w => some w
    | .instruction _ _ => none

/-- The distinct members of a list in the order of first occurrence. -/
def distinct : List Word → List Word
  | [] => []
  | w :: ws => w :: (distinct ws).filter (· ≠ w)

/-- The two bytes of an operation; a literal is loaded from its place among the constants. -/
def encode (constants : List Word) : Operation → List UInt8
  | .literal w => [Instruction.constant.opcode, UInt8.ofNat (constants.idxOf w)]
  | .instruction i operand => [i.opcode, operand]

end Expr

/-- The script that leaves the values of expressions on the stack, in their order. -/
def Script.ofExprs (exprs : List Expr) : Except Fault Script := do
  let ops := (Expr.fragments exprs).flatten
  let constants := Expr.distinct (Expr.literals ops)
  if maxConstants < constants.length then
    throw (.tooManyConstants constants.length maxConstants)
  let script ← Script.ofParts [ops.flatMap (Expr.encode constants)] constants
  discard (script.analyze Script.entry)
  pure script

/-- The script of a sale: the most units a buyer may take, and the price of one. -/
def Script.ofPair (maxUnits unitPrice : Expr) : Except Fault Script :=
  Script.ofExprs [maxUnits, unitPrice]

end TokenSale
