import TokenSale.CommandLine.Run

/-!
# The program

The command line on the files of the machine. Records from the level that the environment asks for are shown on
the error output.
-/

namespace TokenSale.Main

open Files

def programName : String := "mintscript"

/-- The environment variable that holds the least level shown. -/
def levelVariable : String := "MINTSCRIPT_LOG"

/-- The number and the text that a failed call gives. -/
def systemError? : IO.Error → Option (UInt32 × String)
  | .alreadyExists _ code text
  | .inappropriateType _ code text
  | .interrupted _ code text
  | .invalidArgument _ code text
  | .noFileOrDirectory _ code text
  | .noSuchThing _ code text
  | .permissionDenied _ code text
  | .resourceExhausted _ code text
  | .hardwareFault code text
  | .illegalOperation code text
  | .otherError code text
  | .protocolError code text
  | .resourceBusy code text
  | .resourceVanished code text
  | .timeExpired code text
  | .unsatisfiedConstraints code text
  | .unsupportedOperation code text => some (code, text)
  | .unexpectedEof | .userError _ => none

/-- The number of an error, which some calls give with its sign changed. -/
def errorNumber (code : UInt32) : UInt32 := if code < 0x80000000 then code else 0 - code

/-- The cause of a failed call. -/
def causeOf (e : IO.Error) : FileFault :=
  match systemError? e with
  | none => .other (toString e)
  | some (code, text) =>
    match errorNumber code with
    | 2 => .notFound
    | 20 => .notDirectory
    | 21 => .isDirectory
    | 36 => .nameTooLong
    | number => .other s!"{text} (os error {number})"

/-- Runs a call, keeping the cause if it fails. -/
def attempt {α : Type} (act : IO α) : IO (Except FileFault α) :=
  try return .ok (← act) catch e => return .error (causeOf e)

/-- The files of the machine. A path that is too long leads nowhere, even where it could be shortened. -/
def machineFiles : FileSystem IO where
  pathExists p := do
    if FileTree.maxPathLength < p.text.utf8ByteSize then return false
    return (← attempt (IO.FS.realPath p.text)).isOk
  read p := attempt (return (← IO.FS.readBinFile p.text).toList)
  write p bytes := attempt (IO.FS.writeBinFile p.text bytes.toByteArray)

def leastLevel : IO Level :=
  return ((← IO.getEnv levelVariable).bind Level.ofName?).getD .default

end TokenSale.Main

open TokenSale in
def main (arguments : List String) : IO UInt32 := do
  let outcome ← CommandLine.run Main.machineFiles Main.programName arguments
  IO.print outcome.transcript.stdout
  IO.eprint (outcome.stderr (← Main.leastLevel))
  return outcome.exit
