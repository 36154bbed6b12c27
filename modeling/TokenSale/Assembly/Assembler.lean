import TokenSale.Assembly.Line
import TokenSale.Script.Basic
import TokenSale.Text.Lines

/-!
# Assembly

A text is read line by line. Its constants are all the constants of its lines in their order. Every `.source`
starts a source that holds the instructions up to the next one; instructions before the first `.source` make a
source of their own, and a text without any source has one without code.
-/

namespace TokenSale.Assembly

/-- Reads lines, the first of which has the number `number`. -/
def items (current : Section) (number : Nat) : List (List Char) → Except Fault (List Item)
  | [] => .ok []
  | text :: rest =>
    match line current (tokens text) with
    | .error (column, cause) => .error (.assembly number column cause)
    | .ok (next, found) => (items next (number + 1) rest).map (found ++ ·)

/-- The constants among items. -/
def constantsOf (found : List Item) : List Word :=
  found.filterMap fun
    | .constant w => some w
    | _ => none

/-- The code before the first start of a source, and the code after each one. -/
def codeOf : List Item → List UInt8 × List (List UInt8)
  | [] => ([], [])
  | .constant _ :: rest => codeOf rest
  | .source :: rest =>
    let (code, more) := codeOf rest
    ([], code :: more)
  | .instruction i operand :: rest =>
    let (code, more) := codeOf rest
    (i.opcode :: operand :: code, more)

/-- The sources that items make up. -/
def sourcesOf (found : List Item) : List (List UInt8) :=
  match codeOf found with
  | ([], []) => [[]]
  | ([], sources) => sources
  | (code, sources) => code :: sources

def assemble (text : String) : Except Fault Script := do
  let found ← items .code 1 (Text.lines text)
  Script.ofParts (sourcesOf found) (constantsOf found)

end TokenSale.Assembly
