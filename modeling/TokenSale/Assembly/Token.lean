import TokenSale.Text.Blank

/-!
# Tokens

The tokens of a line of assembly are the longest runs of characters that are neither blank nor commas, in the
part of the line before the first `#`. A token knows the column where it starts: one more than the number of
bytes before it.
-/

namespace TokenSale.Assembly

/-- A token of a line. -/
structure Token where
  text : String
  /-- One more than the number of bytes before the token. -/
  column : Nat
deriving DecidableEq

/-- Whether a character stands between tokens. -/
def isSeparator (c : Char) : Bool := c = ',' || Text.isBlank c

/-- The part of a line before its comment. -/
def withoutComment (line : List Char) : List Char := line.takeWhile (· ≠ '#')

/-- Puts a run of characters that starts at a column in front of the tokens after it. -/
def close (column : Nat) (run : List Char) (after : List Token) : List Token :=
  if run = [] then after else ⟨String.ofList run, column⟩ :: after

/-- The run of token characters at the front of code that starts at a column, and the tokens after it. -/
def scan (column : Nat) : List Char → List Char × List Token
  | [] => ([], [])
  | c :: cs =>
    let next := column + c.utf8Size
    let (run, after) := scan next cs
    if isSeparator c then ([], close next run after) else (c :: run, after)

def tokens (line : List Char) : List Token :=
  let (run, after) := scan 1 (withoutComment line)
  close 1 run after

end TokenSale.Assembly
