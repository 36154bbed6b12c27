import TokenSale.Expr.Basic
import TokenSale.Machine.Basic
import TokenSale.Theory.Numerals

/-!
# What an expression means

`Expr.denote` gives an expression its value directly, without stack, constants or code. An aggregate is one fold
from the left over all its operands, however many they are (`Aggregate.fold?`). An expression without a value is
one that cannot be computed: a result past the greatest word, a zero divisor, or a value that the context does
not have.

* `Aggregate.fold?_append`: a fold may be interrupted, its value so far being the first operand of the rest.
* `Aggregate.fold?_eq_eval`: on at least one value the fold is what the machine computes in one go.
-/

namespace TokenSale

namespace Aggregate

/-! ## Aggregates as folds -/

/-- The value of an aggregate of one operand, from which the fold starts. -/
def start : Aggregate → Word → Word
  | every, a | any, a => .ofBool (a ≠ 0)
  | _, a => a

/-- One step of the fold: the exact result where it is a word, or the nearest word where the aggregate
saturates. -/
def step? : Aggregate → Word → Word → Option Word
  | add, a, b => Word.ofNat? (a.toNat + b.toNat)
  | saturatingAdd, a, b => some (.clamp (a.toNat + b.toNat))
  | sub, a, b => some (.clamp (a.toNat - b.toNat))
  | mul, a, b => Word.ofNat? (a.toNat * b.toNat)
  | saturatingMul, a, b => some (.clamp (a.toNat * b.toNat))
  | div, a, b => if b = 0 then none else Word.ofNat? (a.toNat / b.toNat)
  | mod, a, b => if b = 0 then none else Word.ofNat? (a.toNat % b.toNat)
  | exp, a, b => Word.ofNat? (a.toNat ^ b.toNat)
  | min, a, b => some (Min.min a b)
  | max, a, b => some (Max.max a b)
  | every, a, b => some (.ofBool (a ≠ 0 ∧ b ≠ 0))
  | any, a, b => some (.ofBool (a ≠ 0 ∨ b ≠ 0))

/-- The value of an aggregate: one fold from the left over all operands. -/
def fold? (op : Aggregate) : List Word → Option Word
  | [] => none
  | w :: ws => ws.foldlM op.step? (op.start w)

theorem ofBool_ne_zero (b : Bool) : Word.ofBool b ≠ 0 ↔ b = true := by
  cases b <;> decide

theorem start_of_step? {op : Aggregate} {a b w : Word} (h : op.step? a b = some w) :
    op.start w = w := by
  cases op with
  | every =>
    cases h
    simp only [start, ofBool_ne_zero, Bool.decide_eq_true]
  | any =>
    cases h
    simp only [start, ofBool_ne_zero, Bool.decide_eq_true]
  | _ => rfl

theorem start_start (op : Aggregate) (w : Word) : op.start (op.start w) = op.start w := by
  cases op with
  | every => simp only [start, ofBool_ne_zero, Bool.decide_eq_true]
  | any => simp only [start, ofBool_ne_zero, Bool.decide_eq_true]
  | _ => rfl

theorem start_of_foldlM {op : Aggregate} {ws : List Word} {v w : Word} (hv : op.start v = v)
    (h : ws.foldlM op.step? v = some w) : op.start w = w := by
  induction ws generalizing v with
  | nil => cases h; exact hv
  | cons x ws ih =>
    rw [List.foldlM_cons] at h
    obtain ⟨u, hu, hw⟩ := Option.bind_eq_some_iff.mp h
    exact ih (start_of_step? hu) hw

theorem fold?_append (op : Aggregate) {ws : List Word} (hne : ws ≠ []) (rest : List Word) :
    op.fold? (ws ++ rest) = (op.fold? ws).bind fun w => op.fold? (w :: rest) := by
  cases ws with
  | nil => exact absurd rfl hne
  | cons v ws =>
    simp only [List.cons_append, fold?, List.foldlM_append]
    refine Option.bind_congr fun w hw => ?_
    rw [start_of_foldlM (start_start op v) hw]

theorem toOption_orMishap (m : Mishap) (value : Option Word) :
    (orMishap m value).toOption = value := by
  cases value <;> rfl

theorem toOption_foldlM (f : Word → Word → Except Mishap Word) (ws : List Word) (w : Word) :
    (ws.foldlM f w).toOption = ws.foldlM (fun a b => (f a b).toOption) w := by
  induction ws generalizing w with
  | nil => rfl
  | cons x ws ih =>
    rw [List.foldlM_cons, List.foldlM_cons]
    cases h : f w x with
    | error mishap => rfl
    | ok v => exact ih v

theorem foldlM_every (ws : List Word) (b : Bool) :
    ws.foldlM (step? every) (.ofBool b) = some (.ofBool (b && ws.all (· ≠ 0))) := by
  induction ws generalizing b with
  | nil => simp
  | cons x ws ih =>
    have hstep : step? every (.ofBool b) x = some (.ofBool (b && x ≠ 0)) := by
      simp only [step?, ofBool_ne_zero, Bool.decide_and, Bool.decide_eq_true]
    rw [List.foldlM_cons, hstep]
    exact (ih _).trans (by rw [List.all_cons, Bool.and_assoc])

theorem foldlM_any (ws : List Word) (b : Bool) :
    ws.foldlM (step? any) (.ofBool b) = some (.ofBool (b || ws.any (· ≠ 0))) := by
  induction ws generalizing b with
  | nil => simp
  | cons x ws ih =>
    have hstep : step? any (.ofBool b) x = some (.ofBool (b || x ≠ 0)) := by
      simp only [step?, ofBool_ne_zero, Bool.decide_or, Bool.decide_eq_true]
    rw [List.foldlM_cons, hstep]
    exact (ih _).trans (by rw [List.any_cons, Bool.or_assoc])

theorem fold?_eq_eval (op : Aggregate) {ws : List Word} (hne : ws ≠ []) :
    op.fold? ws = (op.eval ws).toOption := by
  cases ws with
  | nil => exact absurd rfl hne
  | cons w ws =>
    cases op with
    | every => exact foldlM_every ws _
    | any => exact foldlM_any ws _
    | exp =>
      rw [eval, foldWords, toOption_foldlM]
      simp only [toOption_orMishap, Word.pow?_eq]
      rfl
    | add | mul | div | mod =>
      rw [eval, foldWords, toOption_foldlM]
      simp only [toOption_orMishap]
      rfl
    | saturatingAdd | sub | saturatingMul | min | max =>
      rw [eval, foldWords, toOption_foldlM]
      rfl

end Aggregate

/-! ## Expressions -/

/-- All that the value of an expression depends on. -/
structure Surroundings where
  slot : Slot → Word
  minted : Address → Word
  tiers : TierOracle
  time : UInt64
  context : List Word

namespace Surroundings

/-- The surroundings as a machine sees them. -/
def scene (s : Surroundings) : Scene Unit where
  storage := .fixed s.slot s.minted
  tiers := s.tiers
  time := s.time
  context := s.context

/-- The level of an account, the lowest one where the oracle cannot tell. -/
def tier (s : Surroundings) (source account : Address) : UInt32 :=
  match s.tiers source account with
  | .ok level => level
  | .error _ => lowestTier

end Surroundings

namespace Expr

mutual

/-- The value of an expression, if it has one. -/
def denote (s : Surroundings) : Expr → Option Word
  | constant w => some w
  | context index => s.context[index.toNat]?
  | stack _ => none
  | storage slot => some (s.slot slot)
  | blockTimestamp => some (.ofUInt64 s.time)
  | numberMinted account => do
    let a ← denote s account
    pure (s.minted (.ofWord a))
  | aggregate op operands => do
    let values ← denoteAll s operands
    op.fold? values
  | isZero value => do
    let a ← denote s value
    pure (.ofBool (a = 0))
  | compare r a b => do
    let x ← denote s a
    let y ← denote s b
    pure (.ofBool (r.holds x y))
  | ifElse condition chosen otherwise => do
    let x ← denote s condition
    let y ← denote s chosen
    let z ← denote s otherwise
    pure (if x = 0 then z else y)
  | timeCmp time c => some (.ofBool (c.holds (.ofUInt64 s.time) (.ofUInt64 time)))
  | between first last => some (.ofBool (first ≤ s.time ∧ s.time ≤ last))
  | tierLevel source account => do
    let a ← denote s account
    pure (.ofUInt32 (s.tier source (.ofWord a)))
  | hasMinTier source account least => do
    let a ← denote s account
    pure (.ofBool (least.toNat ≤ (s.tier source (.ofWord a)).toNat))

def denoteAll (s : Surroundings) : List Expr → Option (List Word)
  | [] => some []
  | e :: rest => do
    let w ← denote s e
    let ws ← denoteAll s rest
    pure (w :: ws)

end

mutual

/-- Whether an expression never reads a position of the stack. -/
def stackFree : Expr → Bool
  | stack _ => false
  | constant _ | context _ | storage _ | blockTimestamp | timeCmp _ _ | between _ _ => true
  | numberMinted e | isZero e | tierLevel _ e | hasMinTier _ e _ => stackFree e
  | compare _ a b => stackFree a && stackFree b
  | ifElse condition chosen otherwise =>
    stackFree condition && stackFree chosen && stackFree otherwise
  | aggregate _ operands => allStackFree operands

def allStackFree : List Expr → Bool
  | [] => true
  | e :: rest => stackFree e && allStackFree rest

end

end Expr

end TokenSale
