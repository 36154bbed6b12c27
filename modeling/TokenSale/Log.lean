import TokenSale.Text.Blank

/-!
# Log records

What the library reports besides its results. A record is a level and a message; whoever runs the library
decides from which level on records are shown.
-/

namespace TokenSale

/-- How grave a record is. -/
inductive Level
  | debug | info | warn | error
deriving DecidableEq

namespace Level

/-- The levels from the least grave on, by number. -/
def rank : Level → Nat
  | debug => 0
  | info => 1
  | warn => 2
  | error => 3

def name : Level → String
  | debug => "DEBUG"
  | info => "INFO"
  | warn => "WARN"
  | error => "ERROR"

/-- The level shown where nothing else is asked for. -/
def default : Level := info

/-- Reads the name of a level in any case of its ASCII letters, with blanks around it. -/
def ofName? (text : String) : Option Level :=
  match String.ofList ((Text.trim text.toList).map Char.toLower) with
  | "debug" => some debug
  | "info" => some info
  | "warn" => some warn
  | "warning" => some warn
  | "error" => some error
  | _ => none

/-- Whether records of a level are shown from the level `least` on. -/
def shownFrom (least level : Level) : Bool := least.rank ≤ level.rank

end Level

/-- One report. -/
structure Record where
  level : Level
  message : String
deriving DecidableEq

namespace Record

/-- The text of a record, with its level or without. -/
def render (r : Record) (showLevel : Bool) : String :=
  (if showLevel then s!"[{r.level.name}] " else "") ++ r.message ++ "\n"

/-- The text of the records that are shown from a level on. -/
def renderAll (least : Level) (records : List Record) : String :=
  String.join ((records.filter fun r => least.shownFrom r.level).map fun r => r.render true)

end Record

end TokenSale
