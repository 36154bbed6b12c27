import TokenSale.Sale.Ledger
import TokenSale.Sale.Registry

/-!
# Configurations

What a sale is deployed with.
-/

namespace TokenSale

/-- The parameters of a sale. -/
structure Config where
  name : String
  symbol : String
  /-- What the address of every token's description starts with. -/
  baseUri : String
  /-- The most tokens that may ever be minted. -/
  supplyLimit : UInt64
  /-- The account that may withdraw the proceeds, and that royalties are owed to. -/
  recipient : Address
  /-- The account that may hand over the sale. -/
  owner : Address
  /-- The royalty in ten-thousandths of a price. -/
  royaltyBps : UInt16
  currency : Currency
  /-- The account of the sale itself, which holds the proceeds. -/
  address : Address
deriving DecidableEq

namespace Config

/-- The greatest royalty: the whole price. -/
def maxRoyaltyBps : UInt16 := 10000

/-- The greatest supply limit under which the ids do not run out. -/
def maxSupplyLimit : UInt64 := UInt64.ofNat (UInt64.size - 1) - Registry.firstId

/-- A sale in the native currency, without royalty, owned by its recipient and named by its address. -/
def basic (name symbol : String) (supplyLimit : UInt64) (recipient : Address) : Config where
  name := name
  symbol := symbol
  baseUri := ""
  supplyLimit := supplyLimit
  recipient := recipient
  owner := recipient
  royaltyBps := 0
  currency := .native
  address := .derive name.toUTF8.toList

end Config

end TokenSale
