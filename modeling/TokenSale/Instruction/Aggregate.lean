import TokenSale.Word

/-!
# Aggregates

The instructions that turn any number of values into one. The arithmetic ones fold the values from the left;
`every` and `any` ask whether values are nonzero.
-/

namespace TokenSale

/-- Why an arithmetic operation has no result. -/
inductive Mishap
  | overflow
  | zeroDivisor
deriving DecidableEq

/-- An operation on any number of values. -/
inductive Aggregate
  | add | saturatingAdd | sub | mul | saturatingMul | div | mod | exp | min | max
  | every | any
deriving DecidableEq

namespace Aggregate

/-- A result that may be missing for one reason only. -/
def orMishap (m : Mishap) : Option Word → Except Mishap Word
  | some w => .ok w
  | none => .error m

/-- Folds values from the left, starting with the first; no values give zero. -/
def foldWords (step : Word → Word → Except Mishap Word) : List Word → Except Mishap Word
  | [] => .ok 0
  | w :: ws => ws.foldlM step w

/-- The value of an aggregate. -/
def eval : Aggregate → List Word → Except Mishap Word
  | add => foldWords fun a b => orMishap .overflow (a.add? b)
  | saturatingAdd => foldWords fun a b => .ok (a.satAdd b)
  | sub => foldWords fun a b => .ok (a.satSub b)
  | mul => foldWords fun a b => orMishap .overflow (a.mul? b)
  | saturatingMul => foldWords fun a b => .ok (a.satMul b)
  | div => foldWords fun a b => orMishap .zeroDivisor (a.div? b)
  | mod => foldWords fun a b => orMishap .zeroDivisor (a.mod? b)
  | exp => foldWords fun a b => orMishap .overflow (a.pow? b)
  | min => foldWords fun a b => .ok (Min.min a b)
  | max => foldWords fun a b => .ok (Max.max a b)
  | every => fun ws => .ok (.ofBool (ws.all (· ≠ 0)))
  | any => fun ws => .ok (.ofBool (ws.any (· ≠ 0)))

end Aggregate

end TokenSale
