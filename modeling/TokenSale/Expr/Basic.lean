import TokenSale.Address
import TokenSale.Instruction.Basic

/-!
# Expressions

An expression describes one value of a script: a literal, something read from the sale, its time or its
context, or something computed from other expressions.
-/

namespace TokenSale

/-- A description of one value. -/
inductive Expr
  | constant (w : Word)
  /-- A value of the context. -/
  | context (index : UInt8)
  /-- The value at a position in the stack. -/
  | stack (index : UInt8)
  | storage (slot : Slot)
  | blockTimestamp
  | numberMinted (account : Expr)
  | aggregate (op : Aggregate) (operands : List Expr)
  | isZero (value : Expr)
  | compare (r : Relation) (a b : Expr)
  /-- One of two values, both of which are evaluated. -/
  | ifElse (condition chosen otherwise : Expr)
  /-- Whether the present time stands to a given one as a comparator says. -/
  | timeCmp (time : UInt64) (c : Comparator)
  /-- Whether the present time lies between two given ones. -/
  | between (first last : UInt64)
  | tierLevel (source : Address) (account : Expr)
  | hasMinTier (source : Address) (account : Expr) (least : UInt8)

namespace Expr

def address (a : Address) : Expr := constant a.toWord

/-- The buyer of a purchase. -/
def account : Expr := context 0

/-- The units that a purchase asks for. -/
def targetUnits : Expr := context 1

/-- Whether an account has any tier above the lowest. -/
def hasAnyTier (source : Address) (account : Expr) : Expr := hasMinTier source account 1

/-- A price that moves linearly from one value to another between two times, and stays at its ends outside.
A window without duration switches from the first price to the last at its end. -/
def ramp (startPrice endPrice : Word) (startTime endTime : UInt64) : Expr :=
  if endTime ≤ startTime then
    ifElse (timeCmp endTime .gte) (constant endPrice) (constant startPrice)
  else
    let elapsed := aggregate .sub [blockTimestamp, constant (.ofUInt64 startTime)]
    let duration := constant (.ofUInt64 (endTime - startTime))
    let moved (delta : Word) : Expr :=
      aggregate .div [aggregate .saturatingMul [elapsed, constant delta], duration]
    if startPrice ≤ endPrice then
      aggregate .min
        [aggregate .saturatingAdd [constant startPrice, moved (endPrice.satSub startPrice)],
          constant endPrice]
    else
      aggregate .max
        [aggregate .sub [constant startPrice, moved (startPrice.satSub endPrice)], constant endPrice]

end Expr

end TokenSale
