import TokenSale.Sale.Config
import TokenSale.Sale.Pricing
import TokenSale.Sale.SaleError

/-!
# Sales

A sale mints tokens for buyers at the price its script asks, and keeps the proceeds until its recipient
withdraws them. This module holds the state of a sale and what can be asked of it.
-/

namespace TokenSale

/-- A deployed sale. -/
structure Sale where
  config : Config
  pricing : Pricing
  registry : Registry
  tiers : TierOracle
  /-- What the sale holds and has not paid out. -/
  proceeds : Word
  totalWithdrawn : Word

namespace Sale

/-- How many values the context of a purchase has. -/
def buyContextLen : Nat := 2

/-- What keeps a sale from being deployed. -/
def deployError? (config : Config) (pricing : Pricing) : Option SaleError :=
  if Config.maxRoyaltyBps < config.royaltyBps then some (.maxRoyalty config.royaltyBps)
  else if Config.maxSupplyLimit < config.supplyLimit then
    some (.maxSupply config.supplyLimit Config.maxSupplyLimit)
  else if buyContextLen < pricing.contextLen then
    some (.contextLength pricing.contextLen buyContextLen)
  else none

/-- The report of a sale that is deployed. -/
def deployReport (config : Config) (pricing : Pricing) : Record :=
  ⟨.info, s!"deploying sale: name={config.name} symbol={config.symbol} " ++
    s!"supply_limit={config.supplyLimit.toNat} script={pricing.script.id.shortText} " ++
    s!"context_len={pricing.contextLen}"⟩

/-- Deploys a sale, and says what there is to report. -/
def deploy (config : Config) (pricing : Pricing) (tiers : TierOracle) :
    Except SaleError Sale × List Record :=
  match deployError? config pricing with
  | some e => (.error e, [])
  | none => (.ok ⟨config, pricing, .empty, tiers, 0, 0⟩, [deployReport config pricing])

/-! ## Questions -/

/-- The units that can still be minted. -/
def remaining (s : Sale) : UInt64 :=
  if s.registry.totalMinted ≤ s.config.supplyLimit then
    s.config.supplyLimit - s.registry.totalMinted
  else 0

def slot (s : Sale) : Slot → Word
  | .supplyLimit => .ofUInt64 s.config.supplyLimit
  | .totalSupply => .ofUInt64 s.registry.totalSupply
  | .totalMinted => .ofUInt64 s.registry.totalMinted

/-- The units ever minted to an account. -/
def numberMinted (s : Sale) (account : Address) : Word := .ofUInt64 (s.registry.numberMinted account)

/-- The counters of a sale as storage. -/
def storage (s : Sale) : Storage Unit := .fixed s.slot s.numberMinted

/-- What the script sees of a purchase. -/
def scene (s : Sale) (account : Address) (units : Word) (time : UInt64) : Scene Unit where
  storage := s.storage
  tiers := s.tiers
  time := time
  context := Pricing.buyContext account units

/-- What the script decides about a purchase, and what there is to report. -/
def quote (s : Sale) (account : Address) (units : Word) (time : UInt64) :
    Except Fault Quote × List Record :=
  let (result, _, log) := (s.pricing.evaluate (s.scene account units time)).perform ((), [])
  (result, log)

/-- Who receives the royalty on a price, and how much. The price is split, so that no product passes the greatest word;
where an operation has no word for a result there is no answer. -/
def royalty? (s : Sale) (price : Word) : Option (Address × Word) := do
  let whole := Word.ofUInt16 Config.maxRoyaltyBps
  let bps := Word.ofUInt16 s.config.royaltyBps
  let quotient ← price.div? whole
  let ofQuotient ← quotient.mul? bps
  let remainder ← price.mod? whole
  let scaled ← remainder.mul? bps
  let ofRemainder ← scaled.div? whole
  let amount ← ofQuotient.add? ofRemainder
  pure (s.config.recipient, amount)

/-- Where the description of a token is found. -/
def tokenUri (s : Sale) (id : UInt64) : Except SaleError String :=
  if s.registry.contains id then .ok s!"{s.config.baseUri}{id.toNat}"
  else .error (.token (.invalidToken id))

end Sale

end TokenSale
