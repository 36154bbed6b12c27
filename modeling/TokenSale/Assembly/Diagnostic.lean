import TokenSale.Assembly.Assembler
import TokenSale.Log

/-!
# Diagnostics

A diagnostic shows why a text is refused and where: the message, the position, and, if the text has the line,
the line itself with a caret below it.
-/

namespace TokenSale.Assembly

/-- A refusal to be shown. -/
structure Diagnostic where
  /-- The name of the text. -/
  file : String
  line : Nat
  column : Nat
  message : String
  /-- The line of the text, if there is one. -/
  echo : Option (List Char)

namespace Diagnostic

/-- The diagnostic for a position in a text. The line numbers zero and one both name the first line. -/
def ofText (file text : String) (line column : Nat) (message : String) : Diagnostic :=
  ⟨file, line, column, message, (Text.lines text)[line - 1]?⟩

/-- Drops all carriage returns from the end. -/
def dropReturns (cs : List Char) : List Char := (cs.reverse.dropWhile (· = '\r')).reverse

/-- Puts blanks before a text until it has `width` characters. -/
def padLeft (width : Nat) (cs : List Char) : List Char :=
  List.replicate (width - cs.length) ' ' ++ cs

def echoLine (number : Nat) (echo : List Char) : String :=
  String.ofList (padLeft 4 (toString number).toList ++ " | ".toList ++ dropReturns echo)

/-- The line with the caret. -/
def caretLine (column : Nat) : String :=
  String.ofList ("  | ".toList ++ List.replicate (column - 1) ' ' ++ ['^'])

def lines (d : Diagnostic) : List String :=
  [s!"error: {d.message}", s!" --> {d.file}:{d.line}:{d.column}"] ++
    match d.echo with
    | some echo => ["  |", echoLine d.line echo, caretLine d.column]
    | none => []

def render (d : Diagnostic) : String := String.join (d.lines.map (· ++ "\n"))

end Diagnostic

/-- The report of a text with a name that was refused. -/
def report (file text : String) : Fault → Record
  | .assembly line column cause =>
    ⟨.error, (Diagnostic.ofText file text line column cause.message).render⟩
  | fault => ⟨.error, s!"{file}: {fault.message}"⟩

/-- The script that a text with a name describes, and what there is to report. -/
def assembleNamed (file text : String) : Except Fault Script × List Record :=
  match assemble text with
  | .ok s => (.ok s, [])
  | .error fault => (.error fault, [report file text fault])

/-- The name of a text that comes from nowhere. -/
def unnamed : String := "<source>"

end TokenSale.Assembly
