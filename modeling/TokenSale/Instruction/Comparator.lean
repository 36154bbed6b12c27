import TokenSale.Word

/-!
# Time comparators

How a script compares the present time with a time of its own.
-/

namespace TokenSale

/-- A comparison of the present time with a given one. -/
inductive Comparator
  | lt | lte | gt | gte
deriving DecidableEq

namespace Comparator

/-- The comparators in the order of their codes. -/
def all : List Comparator := [lt, lte, gt, gte]

/-- The operand byte that stands for a comparator. -/
def code : Comparator → UInt8
  | lt => 0
  | lte => 1
  | gt => 2
  | gte => 3

def name : Comparator → String
  | lt => "LT"
  | lte => "LTE"
  | gt => "GT"
  | gte => "GTE"

def ofCode? (b : UInt8) : Option Comparator := all.find? (·.code == b)

def ofName? (text : String) : Option Comparator := all.find? (·.name == text)

/-- Whether the present time stands to a given one as the comparator says. -/
def holds (c : Comparator) (now time : Word) : Bool :=
  match c with
  | lt => decide (now < time)
  | lte => decide (now ≤ time)
  | gt => decide (time < now)
  | gte => decide (time ≤ now)

@[simp] theorem ofCode?_code (c : Comparator) : ofCode? c.code = some c := by cases c <;> rfl

theorem code_of_ofCode? {b : UInt8} {c : Comparator} (h : ofCode? b = some c) : c.code = b := by
  simpa using List.find?_some h

@[simp] theorem ofName?_name (c : Comparator) : ofName? c.name = some c := by cases c <;> decide

end Comparator

end TokenSale
