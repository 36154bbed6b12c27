/-!
# Lines

A line ends before a line feed, or before a carriage return and a line feed; the end of the text ends the
last line, which is left out when it is empty.
-/

namespace TokenSale.Text

/-- Drops one carriage return from the end. -/
def dropReturn (cs : List Char) : List Char :=
  if cs.getLast? = some '\r' then cs.dropLast else cs

/-- The characters before the first line feed and the lines after it, or `none` when there is no line feed. -/
def splitLines : List Char → List Char × Option (List (List Char))
  | [] => ([], none)
  | c :: cs =>
    let (first, more) := splitLines cs
    let after := match more with
      | some lines => dropReturn first :: lines
      | none => if first = [] then [] else [first]
    if c = '\n' then ([], some after) else (c :: first, more)

def lines (text : String) : List (List Char) :=
  match splitLines text.toList with
  | (first, some rest) => dropReturn first :: rest
  | (first, none) => if first = [] then [] else [first]

end TokenSale.Text
