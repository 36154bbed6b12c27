import TokenSale.Machine.Storage

/-!
# Command-line options

The arguments after the input are flags, read from the left; a flag that is given again takes the place of the
earlier one. A flag is a switch or a setting, whose value is the next argument, whatever it looks like.
-/

namespace TokenSale.CommandLine

/-- What a run of the command line is asked to do. -/
structure Options where
  /-- The path of the script. -/
  input : String
  /-- The path of the binary script to write. -/
  output : Option String
  disassemble : Bool
  evaluate : Bool
  /-- The buyer of the purchase that is evaluated. -/
  account : Address
  /-- The units that the buyer asks for. -/
  units : Word
  time : UInt64
  /-- The counters of the sale. -/
  counters : Counters

/-- A flag without a value. -/
inductive Switch
  | disassemble | evaluate
deriving DecidableEq

/-- A flag with a value. -/
inductive Setting
  | output | account | units | time | supplyLimit | minted | supply
deriving DecidableEq

/-- A flag. -/
inductive Flag
  | switch (s : Switch)
  | setting (s : Setting)
deriving DecidableEq

/-- Why a value does not fit its flag. -/
inductive ValueError
  | address (cause : AddressError)
  | word (value : String)
  | time (value : String)
deriving DecidableEq

def ValueError.message : ValueError → String
  | address cause => cause.message
  | word value => s!"'{value}' is not a number"
  | time value => s!"'{value}' is not a valid number"

/-- Why arguments are refused. -/
inductive UsageError
  | missingValue (flag : String)
  | invalidValue (flag : String) (cause : ValueError)
  | unexpected (argument : String)
deriving DecidableEq

def UsageError.message : UsageError → String
  | missingValue flag => s!"{flag} requires an argument"
  | invalidValue flag cause => s!"Invalid {flag}: {cause.message}"
  | unexpected argument => s!"Unexpected argument: {argument}\n"

def Flag.ofText? : String → Option Flag
  | "-d" | "--disassemble" => some (.switch .disassemble)
  | "-e" | "--eval" => some (.switch .evaluate)
  | "-o" | "--output" => some (.setting .output)
  | "--account" => some (.setting .account)
  | "--units" => some (.setting .units)
  | "--time" => some (.setting .time)
  | "--supply-limit" => some (.setting .supplyLimit)
  | "--minted" => some (.setting .minted)
  | "--supply" => some (.setting .supply)
  | _ => none

/-- Reads a word: a decimal numeral, or `0x` and a hexadecimal one. -/
def word (value : String) : Except ValueError Word :=
  let parsed := match value.toList with
    | '0' :: 'x' :: run => Word.ofHexadecimal? run
    | run => Word.ofDecimal? run
  match parsed with
  | some w => .ok w
  | none => .error (.word value)

/-- Reads a time in seconds. -/
def seconds (value : String) : Except ValueError UInt64 :=
  match Decimal.natural? UInt64.size value.toList with
  | some n => .ok (UInt64.ofNat n)
  | none => .error (.time value)

namespace Options

/-- Options that ask for nothing but the input. -/
def ofInput (input : String) : Options where
  input := input
  output := none
  disassemble := false
  evaluate := false
  account := .zero
  units := 0
  time := 0
  counters := .zero

def turnOn (o : Options) : Switch → Options
  | .disassemble => { o with disassemble := true }
  | .evaluate => { o with evaluate := true }

def assign (o : Options) (value : String) : Setting → Except ValueError Options
  | .output => .ok { o with output := some value }
  | .account =>
    match Address.ofText value with
    | .ok account => .ok { o with account := account }
    | .error cause => .error (.address cause)
  | .units => (word value).map fun w => { o with units := w }
  | .time => (seconds value).map fun time => { o with time := time }
  | .supplyLimit => (word value).map fun w => { o with counters := { o.counters with supplyLimit := w } }
  | .minted => (word value).map fun w => { o with counters := { o.counters with totalMinted := w } }
  | .supply => (word value).map fun w => { o with counters := { o.counters with totalSupply := w } }

/-- Reads flags on top of given options. -/
def extend (o : Options) : List String → Except UsageError Options
  | [] => .ok o
  | text :: rest =>
    match Flag.ofText? text with
    | none => .error (.unexpected text)
    | some (.switch s) => (o.turnOn s).extend rest
    | some (.setting s) =>
      match rest with
      | [] => .error (.missingValue text)
      | value :: rest =>
        match o.assign value s with
        | .error cause => .error (.invalidValue text cause)
        | .ok next => next.extend rest

/-- Reads an input and the flags after it. -/
def parse (input : String) (flags : List String) : Except UsageError Options :=
  (ofInput input).extend flags

end Options

end TokenSale.CommandLine
