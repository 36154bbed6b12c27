import TokenSale.Sale.Basic

/-!
# Calls on a sale

A sale trades against a ledger: a purchase moves money from the buyer to the sale, and a withdrawal moves the
proceeds to the recipient. A call either succeeds or is refused; what is refused changes nothing, because every
step that can fail comes before the first change or is bound to succeed after it.
-/

namespace TokenSale

/-- A sale, the ledger that moves its money, and what has been reported. -/
structure Market where
  sale : Sale
  ledger : Ledger
  log : List Record

/-- A call on a sale. -/
abbrev Trade (α : Type) := Action Market SaleError α

/-- Who calls, with how much native currency attached, and when. -/
structure Call where
  caller : Address
  value : Word
  time : UInt64
deriving DecidableEq

/-- What a buyer asks for. -/
structure Order where
  /-- The fewest units the buyer takes. -/
  minimum : Word
  desired : Word
  /-- The highest price of a unit that the buyer pays. -/
  maximumPrice : Word
deriving DecidableEq

/-- What a buyer got. -/
structure MintReceipt where
  firstId : UInt64
  units : UInt64
  unitPrice : Word
  totalCost : Word
  /-- What is left of the native currency attached. -/
  refund : Word
deriving DecidableEq

/-- What a recipient got. -/
structure WithdrawReceipt where
  withdrawer : Address
  amount : Word
  totalWithdrawn : Word
deriving DecidableEq

namespace Market

variable {α : Type}

def onLedger (act : Action Ledger PaymentError α) : Trade α :=
  .within (·.ledger) (fun l m => { m with ledger := l }) (act.mapError SaleError.payment)

/-- An action on the registry of the sale. -/
def onRegistry (act : Action Registry TokenError α) : Trade α :=
  .within (·.sale.registry) (fun r m => { m with sale := { m.sale with registry := r } })
    (act.mapError SaleError.token)

def changeSale (f : Sale → Sale) : Trade Unit := modify fun m => { m with sale := f m.sale }

def report (message : String) : Trade Unit :=
  modify fun m => { m with log := m.log ++ [⟨.info, message⟩] }

def quote (account : Address) (units : Word) (time : UInt64) : Trade Quote :=
  .ofFunction fun m =>
    let (result, records) := m.sale.quote account units time
    (result.mapError SaleError.script, { m with log := m.log ++ records })

/-- Takes the cost of a purchase from the caller, and gives what is left of the currency attached. -/
def collect (call : Call) (cost : Word) : Trade Word := do
  let config := (← get).sale.config
  match config.currency with
  | .token token =>
    onLedger (Ledger.transferFrom token config.address call.caller config.address cost)
    pure 0
  | .native =>
    if call.value < cost then throw (.insufficientFund call.value cost)
    onLedger (Ledger.transfer .native call.caller config.address cost)
    pure (call.value.satSub cost)

/-- Refuses a purchase of fewer units than the buyer takes. -/
def requireStock (minimum available : Word) : Trade Unit :=
  if available < minimum then throw (.insufficientStock minimum available) else pure ()

/-- Buys tokens for the caller. -/
def mint (call : Call) (order : Order) : Trade MintReceipt := do
  if order.minimum = 0 then throw .zeroMinimum
  if order.desired < order.minimum then throw (.minimumOverDesired order.minimum order.desired)
  let wanted := min order.desired (.ofUInt64 (← get).sale.remaining)
  requireStock order.minimum wanted
  let q ← quote call.caller wanted call.time
  let units := min wanted q.maxUnits
  requireStock order.minimum units
  if order.maximumPrice < q.unitPrice then throw (.maximumPrice q.unitPrice order.maximumPrice)
  match units.mul? q.unitPrice with
  | none => throw (.costOverflow units q.unitPrice)
  | some cost =>
    let refund ← collect call cost
    changeSale fun s => { s with proceeds := s.proceeds.satAdd cost }
    let ids ← onRegistry (Registry.mint call.caller units.lowUInt64)
    report (s!"minted: buyer={call.caller} units={units} unit_price={q.unitPrice} " ++
      s!"cost={cost} first_id={ids.first.toNat}")
    pure ⟨ids.first, units.lowUInt64, q.unitPrice, cost, refund⟩

/-- Refuses anyone but the recipient. -/
def requireRecipient (caller : Address) : Trade Unit := do
  if caller ≠ (← get).sale.config.recipient then throw (.recipientOnly caller)

/-- Pays the proceeds out to the recipient. -/
def withdraw (caller : Address) : Trade WithdrawReceipt := do
  requireRecipient caller
  let s := (← get).sale
  if s.proceeds = 0 then throw .zeroFund
  onLedger (Ledger.transfer s.config.currency s.config.address s.config.recipient s.proceeds)
  let total := s.totalWithdrawn.satAdd s.proceeds
  changeSale fun s => { s with proceeds := 0, totalWithdrawn := total }
  report s!"withdrawn: recipient={caller} amount={s.proceeds} total={total}"
  pure ⟨caller, s.proceeds, total⟩

def setRecipient (caller recipient : Address) : Trade Unit := do
  requireRecipient caller
  report s!"recipient changed: {(← get).sale.config.recipient} -> {recipient}"
  changeSale fun s => { s with config := { s.config with recipient := recipient } }

def transferOwnership (caller owner : Address) : Trade Unit := do
  let current := (← get).sale.config.owner
  if caller ≠ current then throw (.ownerOnly caller)
  report s!"ownership transferred: {current} -> {owner}"
  changeSale fun s => { s with config := { s.config with owner := owner } }

def burn (caller : Address) (id : UInt64) : Trade Unit := onRegistry (Registry.burn caller id)

end Market

end TokenSale
