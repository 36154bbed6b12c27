import TokenSale.Assembly.Content
import TokenSale.Assembly.Listing
import TokenSale.CommandLine.Options
import TokenSale.CommandLine.Usage
import TokenSale.Files.System
import TokenSale.Sale.Pricing

/-!
# The command line

A run loads one script, from its binary form or from assembly, and does with it what it was asked to: it writes
the binary form, prints the assembly, and evaluates a purchase, in this order. The first failure is reported and
ends the run.
-/

namespace TokenSale.CommandLine

open Files

/-- What a run has printed and reported. -/
structure Transcript where
  stdout : String
  log : List Record

/-- What a run leaves besides the files it wrote. -/
structure Outcome where
  exit : UInt32
  transcript : Transcript

/-- The text on the error output, where records are shown from a level on. -/
def Outcome.stderr (least : Level) (o : Outcome) : String := Record.renderAll least o.transcript.log

/-- The exit code of a run that came to its end. -/
def success : UInt32 := 0

/-- The exit code of a run that failed. -/
def failure : UInt32 := 1

/-- A part of a run: it prints and reports, and may end the run with an exit code. -/
abbrev Session (m : Type → Type) (α : Type) := ExceptT UInt32 (StateT Transcript m) α

/-- How a script was loaded. -/
inductive Form
  | binary
  | text
deriving DecidableEq

section

variable {m : Type → Type} [Monad m] {α : Type}

/-- An action on the surroundings of a run. -/
def outside (act : m α) : Session m α := ExceptT.lift (StateT.lift act)

def print (text : String) : Session m Unit := modify fun t => { t with stdout := t.stdout ++ text }

def addRecords (records : List Record) : Session m Unit :=
  modify fun t => { t with log := t.log ++ records }

/-- Reports a message. -/
def inform (message : String) : Session m Unit := addRecords [⟨.info, message⟩]

/-- Reports why a run fails, and ends it. -/
def fail (message : String) : Session m α := do
  addRecords [⟨.error, message⟩]
  throw failure

/-- Loads a script from its binary form, or else from assembly. -/
def loadBytes (input : String) (bytes : List UInt8) : Session m (Script × Form) := do
  if Script.hasMagic bytes then
    match Script.ofBytes bytes with
    | .ok s => pure (s, .binary)
    | .error fault => fail s!"Invalid script: {fault.message}"
  else
    let (result, records) := Assembly.assembleContent input (.ok bytes)
    addRecords records
    match result with
    | .ok s => pure (s, .text)
    | .error fault => fail s!"Assembly failed: {fault.message}"

def load (fs : FileSystem m) (input : String) : Session m (Script × Form) := do
  let path := Path.ofText input
  if !(← outside (fs.pathExists path)) then fail s!"Input file does not exist: {input}"
  match ← outside (fs.read path) with
  | .error cause => fail s!"Failed to read {input}: {cause.message}"
  | .ok bytes => loadBytes input bytes

/-- The report of a script that was loaded. -/
def loadReport (input : String) (s : Script) : String :=
  s!"Loaded {input} ({s.sources.length} sources, {s.constants.length} constants, " ++
    s!"id {s.id.shortText})"

/-- Whether the binary form is written: when a place for it was given, or when assembly was loaded and
nothing else was asked for. -/
def Options.compiles (o : Options) (form : Form) : Bool :=
  o.output.isSome || (form = .text && !o.disassemble && !o.evaluate)

/-- Where the binary form is written: beside the input unless a place was given. -/
def Options.target (o : Options) : Path :=
  match o.output with
  | some text => Path.ofText text
  | none => (Path.ofText o.input).withExtension "bin"

/-- Refuses a path in a directory that does not exist. -/
def requireDirectory (fs : FileSystem m) (p : Path) : Session m Unit :=
  match p.parent? with
  | none => pure ()
  | some parent => do
    if parent = .empty then pure ()
    else if !(← outside (fs.pathExists parent)) then
      fail s!"Output directory does not exist: {parent.text}"

/-- Writes the binary form of a script. -/
def compile (fs : FileSystem m) (o : Options) (s : Script) : Session m Unit := do
  requireDirectory fs o.target
  let bytes := s.toBytes
  match ← outside (fs.write o.target bytes) with
  | .error cause => fail s!"Failed to write output file: {cause.message}"
  | .ok _ => inform s!"Compiled {o.input} -> {o.target.text} ({bytes.length} bytes)"

def printAssembly (s : Script) : Session m Unit :=
  match Assembly.disassemble s with
  | .ok text => print text
  | .error fault => fail s!"Disassembly failed: {fault.message}"

/-- What the script sees of the purchase that is evaluated. No tier source is known. -/
def Options.scene (o : Options) : Scene Unit where
  storage := o.counters.storage
  tiers := .none
  time := o.time
  context := Pricing.buyContext o.account o.units

/-- Evaluates a purchase and prints what the script decides about it. -/
def evaluate (o : Options) (s : Script) : Session m Unit :=
  match Pricing.ofScript s with
  | .error fault => fail s!"Not a sale script: {fault.message}"
  | .ok pricing => do
    let (result, _, records) := (pricing.evaluate o.scene).perform ((), [])
    addRecords records
    match result with
    | .error fault => fail s!"Evaluation aborted: {fault.message}"
    | .ok q =>
      print s!"max_units  {q.maxUnits}\n"
      print s!"unit_price {q.unitPrice}\n"

def perform (fs : FileSystem m) (o : Options) : Session m Unit := do
  let (s, form) ← load fs o.input
  inform (loadReport o.input s)
  if o.compiles form then compile fs o s
  if o.disassemble then printAssembly s
  if o.evaluate then evaluate o s

/-- Reads the arguments and does what they ask for. -/
def session (fs : FileSystem m) (program : String) : (arguments : List String) → Session m Unit
  | [] => do
    inform (usage program)
    throw failure
  | input :: flags =>
    if input = "-h" ∨ input = "--help" then inform (usage program)
    else match Options.parse input flags with
      | .ok o => perform fs o
      | .error (.unexpected argument) => do
        addRecords [⟨.error, (UsageError.unexpected argument).message⟩]
        inform (usage program)
        throw failure
      | .error e => fail e.message

def run (fs : FileSystem m) (program : String) (arguments : List String) : m Outcome := do
  let (result, transcript) ← (ExceptT.run (session fs program arguments)).run ⟨"", []⟩
  match result with
  | .ok _ => pure ⟨success, transcript⟩
  | .error exit => pure ⟨exit, transcript⟩

end

end TokenSale.CommandLine
