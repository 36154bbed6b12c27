/-!
# Storage slots

The counters of a sale that a script can read.
-/

namespace TokenSale

/-- A counter of a sale. -/
inductive Slot
  /-- The most units that may ever be minted. -/
  | supplyLimit
  /-- The units in circulation: minted and not burned. -/
  | totalSupply
  /-- The units ever minted. -/
  | totalMinted
deriving DecidableEq

namespace Slot

/-- The slots in the order of their codes. -/
def all : List Slot := [supplyLimit, totalSupply, totalMinted]

/-- The operand byte that stands for a slot. -/
def code : Slot → UInt8
  | supplyLimit => 0
  | totalSupply => 1
  | totalMinted => 2

def name : Slot → String
  | supplyLimit => "SUPPLY_LIMIT"
  | totalSupply => "TOTAL_SUPPLY"
  | totalMinted => "TOTAL_MINTED"

def ofCode? (b : UInt8) : Option Slot := all.find? (·.code == b)

def ofName? (text : String) : Option Slot := all.find? (·.name == text)

@[simp] theorem ofCode?_code (s : Slot) : ofCode? s.code = some s := by cases s <;> rfl

theorem code_of_ofCode? {b : UInt8} {s : Slot} (h : ofCode? b = some s) : s.code = b := by
  simpa using List.find?_some h

@[simp] theorem ofName?_name (s : Slot) : ofName? s.name = some s := by cases s <;> decide

end Slot

end TokenSale
