import TokenSale.Address
import TokenSale.Log
import TokenSale.Table

/-!
# Tiers

A tier oracle knows the level of an account at a tier source, or why it cannot tell. A script never sees a
failure: where the oracle cannot tell, the level is the lowest, and a warning is recorded.
-/

namespace TokenSale

/-- Why there is no tier level. -/
inductive TierError
  | unknownSource (source : Address)
  | failed (source : Address) (reason : String)
deriving DecidableEq

def TierError.message : TierError → String
  | unknownSource source => s!"no tier source at {source}"
  | failed source reason => s!"tier source {source} failed: {reason}"

/-- The level of an account at a tier source. -/
abbrev TierOracle := (source account : Address) → Except TierError UInt32

/-- The level of accounts about which nothing else is known. -/
def lowestTier : UInt32 := 0

namespace TierOracle

def none : TierOracle := fun source _ => .error (.unknownSource source)

/-- The level that a script sees, and what there is to report about it. -/
def resolve (oracle : TierOracle) (source account : Address) : UInt32 × List Record :=
  match oracle source account with
  | .ok level => (level, [])
  | .error e =>
    (lowestTier, [⟨.warn, s!"tier lookup for {account} failed, using lowest tier: {e.message}"⟩])

end TierOracle

/-- Tier sources and the levels of accounts at them. -/
structure TierTable where
  sources : Table Address (Table Address UInt32)

namespace TierTable

def empty : TierTable := ⟨∅⟩

/-- Makes a source known; the levels of a known one stay. -/
def addSource (t : TierTable) (source : Address) : TierTable :=
  ⟨t.sources.set source (t.sources.getD source ∅)⟩

/-- Gives an account a level at a source, which becomes known. -/
def setTier (t : TierTable) (source account : Address) (level : UInt32) : TierTable :=
  ⟨t.sources.set source ((t.sources.getD source ∅).set account level)⟩

/-- The table as an oracle: an account without a level at a known source is at the lowest. -/
def oracle (t : TierTable) : TierOracle := fun source account =>
  match t.sources.get? source with
  | some levels => .ok (levels.getD account lowestTier)
  | Option.none => .error (.unknownSource source)

end TierTable

end TokenSale
