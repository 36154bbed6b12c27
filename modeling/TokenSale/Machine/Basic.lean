import TokenSale.Machine.Stack
import TokenSale.Machine.Storage
import TokenSale.Machine.Tier
import TokenSale.Script.Basic

/-!
# The machine

A machine runs one source of a script from its first instruction to its last; there are no jumps. It keeps a
stack and counts its steps. What a failed run did stays visible: the values on the stack, the reads of the
storage and the warnings recorded. Where a run stands in its source is nothing that a machine keeps: a run starts at
the front, and what is left of the source is an argument of `execFrom`.
-/

namespace TokenSale

/-- The state of a machine whose storage answers from a state `σ`. -/
structure Machine (σ : Type) where
  stack : Stack
  /-- The instructions started by the last run. -/
  steps : Nat
  store : σ
  log : List Record

/-- What a run can see besides its script. -/
structure Scene (σ : Type) where
  storage : Storage σ
  tiers : TierOracle
  /-- The present time. -/
  time : UInt64
  context : List Word

/-- The most instructions that a run executes unless it is told otherwise. -/
def defaultMaxSteps : Nat := 4096

/-- An action of a machine. -/
abbrev Run (σ α : Type) := Action (Machine σ) Fault α

namespace Machine

variable {σ α : Type}

def idle (store : σ) : Machine σ := ⟨.empty, 0, store, []⟩

def onStack (act : Action Stack Fault α) : Run σ α :=
  .within (·.stack) (fun s m => { m with stack := s }) act

def push (site : Site) (w : Word) : Run σ Unit := onStack (Stack.push site w)

def pop (site : Site) : Run σ Word := onStack (Stack.pop site)

/-- Takes `n` values off the stack, in the order in which they were pushed. -/
def popMany (site : Site) (n : Nat) : Run σ (List Word) := onStack (Stack.popMany site n)

def pushFlag (site : Site) (b : Bool) : Run σ Unit := push site (.ofBool b)

/-- Puts a value on the stack if there is one, and fails otherwise. -/
def pushOr (site : Site) (fault : Fault) : Option Word → Run σ Unit
  | some w => push site w
  | none => throw fault

/-- Asks the storage. -/
def ask (question : σ → α × σ) : Run σ α :=
  .ofFunction fun m =>
    let (a, store) := question m.store
    (.ok a, { m with store := store })

/-- Takes a tier source and an account off the stack and looks up the level. -/
def popTier (scene : Scene σ) (site : Site) : Run σ UInt32 := do
  let source ← pop site
  let account ← pop site
  let (level, records) := scene.tiers.resolve (.ofWord source) (.ofWord account)
  modify fun m => { m with log := m.log ++ records }
  pure level

/-- Executes one instruction whose operand count, if it has one, is not zero. -/
def dispatch (scene : Scene σ) (constants : List Word) (i : Instruction) (operand : UInt8)
    (offset : Nat) : Run σ Unit := do
  let site : Site := ⟨i.mnemonic, offset⟩
  match i with
  | .constant =>
    pushOr site (.constantOutOfBounds offset operand constants.length) constants[operand.toNat]?
  | .stack =>
    let m ← get
    pushOr site (.stackReadOutOfBounds offset operand m.stack.depth) (m.stack.get? operand.toNat)
  | .context =>
    pushOr site (.contextOutOfBounds offset operand scene.context.length) scene.context[operand.toNat]?
  | .storage =>
    match Slot.ofCode? operand with
    | some slot => push site (← ask (scene.storage.read slot))
    | none => throw (.invalidStorageSlot offset operand)
  | .blockTimestamp => push site (.ofUInt64 scene.time)
  | .numberMinted =>
    let account ← pop site
    push site (← ask (scene.storage.minted (.ofWord account)))
  | .aggregate op =>
    let values ← popMany site operand.toNat
    match op.eval values with
    | .ok w => push site w
    | .error mishap => throw (.ofMishap site mishap)
  | .isZero => pushFlag site ((← pop site) = 0)
  | .compare r =>
    let b ← pop site
    let a ← pop site
    pushFlag site (r.holds a b)
  | .eagerIf =>
    let otherwise ← pop site
    let chosen ← pop site
    let condition ← pop site
    push site (if condition = 0 then otherwise else chosen)
  | .timeCmp =>
    match Comparator.ofCode? operand with
    | some c => pushFlag site (c.holds (.ofUInt64 scene.time) (← pop site))
    | none => throw (.invalidComparator offset operand)
  | .betweenTimestamps =>
    let last ← pop site
    let first ← pop site
    let now := Word.ofUInt64 scene.time
    pushFlag site (first ≤ now ∧ now ≤ last)
  | .tierLevel => push site (.ofUInt32 (← popTier scene site))
  | .hasMinTier =>
    let level ← popTier scene site
    pushFlag site (operand.toUInt32 ≤ level)

/-- Executes one instruction. -/
def exec (scene : Scene σ) (constants : List Word) (i : Instruction) (operand : UInt8)
    (offset : Nat) : Run σ Unit :=
  if i.arity = .operand ∧ operand = 0 then throw (.invalidOperandCount ⟨i.mnemonic, offset⟩ operand)
  else dispatch scene constants i operand offset

/-- Counts a step, and fails when there are more than `limit`. -/
def tick (limit : Nat) : Run σ Unit := do
  modify fun m => { m with steps := m.steps + 1 }
  if limit < (← get).steps then throw (.stepLimitExceeded limit)

/-- Executes code that stands at an offset of a source. -/
def execFrom (scene : Scene σ) (constants : List Word) (limit source : Nat) :
    (offset : Nat) → List UInt8 → Run σ Unit
  | _, [] => pure ()
  | offset, [_] => do
    tick limit
    throw (.unexpectedEnd source offset)
  | offset, opcode :: operand :: rest => do
    tick limit
    match Instruction.ofOpcode? opcode with
    | none => throw (.invalidInstruction opcode offset)
    | some i =>
      exec scene constants i operand offset
      execFrom scene constants limit source (offset + Instruction.width) rest

/-- Runs a source from an empty stack. A source that does not exist leaves the machine as it was. -/
def run (script : RawScript) (limit : Nat) (scene : Scene σ) (source : Nat) : Run σ Unit :=
  match script.source source with
  | .error fault => throw fault
  | .ok code => do
    modify fun m => { m with stack := .empty, steps := 0 }
    execFrom scene script.constants limit source 0 code

/-- The values on the stack, the bottom first, if there are as many as expected. -/
def outputs (expected : Nat) : Run σ (List Word) := do
  let s := (← get).stack
  if s.depth = expected then pure s.toList else throw (.outputMismatch expected s.depth)

/-- Runs a source and gives the values it leaves, if there are as many as expected. -/
def evaluate (script : RawScript) (limit : Nat) (scene : Scene σ) (source expected : Nat) :
    Run σ (List Word) := do
  run script limit scene source
  outputs expected

end Machine

end TokenSale
