import TokenSale.Fault
import TokenSale.Sale.Ledger
import TokenSale.Sale.Registry

/-!
# Refusals of a sale

Why a sale is not deployed or refuses a call. Every refusal has a reason, which stays the same when its text
changes.
-/

namespace TokenSale

/-- Why a sale refuses. -/
inductive SaleError
  | zeroMinimum
  | minimumOverDesired (minimum desired : Word)
  | insufficientStock (minimum available : Word)
  | maximumPrice (price maximum : Word)
  | insufficientFund (value cost : Word)
  | costOverflow (units unitPrice : Word)
  | payment (cause : PaymentError)
  | recipientOnly (caller : Address)
  | zeroFund
  | token (cause : TokenError)
  | maxRoyalty (bps : UInt16)
  | maxSupply (limit max : UInt64)
  | contextLength (required supplied : Nat)
  | ownerOnly (caller : Address)
  | script (cause : Fault)
deriving DecidableEq

namespace SaleError

def reason : SaleError → String
  | zeroMinimum => "0_MINIMUM"
  | minimumOverDesired _ _ => "MINIMUM_OVER_DESIRED"
  | insufficientStock _ _ => "INSUFFICIENT_STOCK"
  | maximumPrice _ _ => "MAXIMUM_PRICE"
  | insufficientFund _ _ => "INSUFFICIENT_FUND"
  | costOverflow _ _ => "COST_OVERFLOW"
  | payment _ => "PAYMENT_FAILED"
  | recipientOnly _ => "RECIPIENT_ONLY"
  | zeroFund => "ZERO_FUND"
  | token (.notOwner _ _) => "NOT_OWNER"
  | token (.invalidToken _) => "INVALID_TOKEN"
  | token (.idsExhausted _) => "IDS_EXHAUSTED"
  | maxRoyalty _ => "MAX_ROYALTY"
  | maxSupply _ _ => "MAX_SUPPLY"
  | contextLength _ _ => "CONTEXT_LENGTH"
  | ownerOnly _ => "OWNER_ONLY"
  | script _ => "SCRIPT"

def message : SaleError → String
  | zeroMinimum => "0_MINIMUM"
  | minimumOverDesired minimum desired => s!"MINIMUM_OVER_DESIRED: minimum {minimum} over desired {desired}"
  | insufficientStock minimum available =>
    s!"INSUFFICIENT_STOCK: minimum {minimum}, available {available}"
  | maximumPrice price maximum => s!"MAXIMUM_PRICE: unit price {price} over maximum {maximum}"
  | insufficientFund value cost => s!"INSUFFICIENT_FUND: sent {value}, cost {cost}"
  | costOverflow units unitPrice => s!"COST_OVERFLOW: {units} units at {unitPrice}"
  | payment cause => s!"PAYMENT_FAILED: {cause.message}"
  | recipientOnly caller => s!"RECIPIENT_ONLY: {caller} is not the recipient"
  | zeroFund => "ZERO_FUND"
  | token cause => cause.message
  | maxRoyalty bps => s!"MAX_ROYALTY: {bps.toNat} basis points"
  | maxSupply limit max => s!"MAX_SUPPLY: supply limit {limit.toNat} over {max.toNat}"
  | contextLength required supplied =>
    s!"CONTEXT_LENGTH: script reads {required} context slots, purchases supply {supplied}"
  | ownerOnly caller => s!"OWNER_ONLY: {caller} is not the owner"
  | script cause => s!"SCRIPT: {cause.message}"

end SaleError

end TokenSale
