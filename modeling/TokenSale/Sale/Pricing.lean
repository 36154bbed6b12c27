import TokenSale.Machine.Basic
import TokenSale.Script.Analysis
import TokenSale.Script.Binary

/-!
# Pricing

A script prices a sale when it leaves two values, the most units a buyer may take and the price of one, and is
short enough to run to its end. Both values come from one run over a snapshot of the sale, so that they describe
one state.
-/

namespace TokenSale

/-- What a script decides about a purchase. -/
structure Quote where
  maxUnits : Word
  unitPrice : Word
deriving DecidableEq

/-- A script that prices a sale. -/
structure Pricing where
  script : RawScript
  summary : Summary
  maxSteps : Nat
  analyzed : script.analyze Script.entry = .ok summary
  finalDepth_eq : summary.finalDepth = 2
  instructions_le : summary.instructions ≤ maxSteps

namespace Pricing

/-- How many values a pricing script leaves. -/
def outputWidth : Nat := 2

/-- The pricing by a script under a step limit, if the script fits. -/
def ofScriptWithin (maxSteps : Nat) (script : RawScript) : Except Fault Pricing :=
  match h : script.analyze Script.entry with
  | .error fault => .error fault
  | .ok summary =>
    if hd : summary.finalDepth = outputWidth then
      if hs : summary.instructions ≤ maxSteps then .ok ⟨script, summary, maxSteps, h, hd, hs⟩
      else .error (.sourceTooLong summary.instructions maxSteps)
    else .error (.outputMismatch outputWidth summary.finalDepth)

/-- The pricing by a script under the default step limit. -/
def ofScript (script : RawScript) : Except Fault Pricing := ofScriptWithin defaultMaxSteps script

/-- The pricing under another step limit, if its script still runs to its end. -/
def withLimit (p : Pricing) (maxSteps : Nat) : Except Fault Pricing :=
  if h : p.summary.instructions ≤ maxSteps then
    .ok { p with maxSteps := maxSteps, instructions_le := h }
  else .error (.sourceTooLong p.summary.instructions maxSteps)

/-- The least length of a context that the script reads from. -/
def contextLen (p : Pricing) : Nat := p.summary.contextLen

variable {σ : Type}

def report (time : UInt64) (q : Quote) : Record :=
  ⟨.debug, s!"sale script at {time.toNat}: max_units={q.maxUnits} unit_price={q.unitPrice}"⟩

/-- The run of the script over a snapshot of the storage. -/
def runOnce (p : Pricing) (scene : Scene σ) (store : σ) :
    Except Fault (List Word) × Machine (Snapshot σ) :=
  (Machine.evaluate p.script p.maxSteps { scene with storage := Snapshot.storage scene.storage }
    Script.entry outputWidth).perform (.idle (.ofBase store))

/-- Evaluates the script, reading from a store and adding to a log. -/
def evaluate (p : Pricing) (scene : Scene σ) : Action (σ × List Record) Fault Quote :=
  .ofFunction fun (store, log) =>
    let (result, m) := p.runOnce scene store
    match result with
    | .error fault => (.error fault, (m.store.base, log ++ m.log))
    | .ok values =>
      let q : Quote := ⟨values.getD 0 0, values.getD 1 0⟩
      (.ok q, (m.store.base, log ++ m.log ++ [report scene.time q]))

/-- The context of a purchase: the buyer and the units asked for. -/
def buyContext (account : Address) (units : Word) : List Word := [account.toWord, units]

end Pricing

end TokenSale
