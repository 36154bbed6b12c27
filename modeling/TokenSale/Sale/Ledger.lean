import TokenSale.Action
import TokenSale.Address
import TokenSale.Table

/-!
# The ledger

Balances of accounts in any currency, and allowances by which the owner of tokens lets a spender move them. A
transfer takes its amount from one balance and adds it to another; a balance that would pass the greatest word
stays there.
-/

namespace TokenSale

/-- What is paid in. -/
inductive Currency
  | native
  | token (address : Address)
deriving DecidableEq

/-- Why money does not move. -/
inductive PaymentError
  | insufficientBalance (account : Address) (balance amount : Word)
  | insufficientAllowance (owner spender : Address) (allowance amount : Word)
deriving DecidableEq

def PaymentError.message : PaymentError → String
  | insufficientBalance account balance amount => s!"{account} holds {balance}, needs {amount}"
  | insufficientAllowance owner spender allowance amount =>
    s!"{spender} may spend {allowance} for {owner}, needs {amount}"

/-- Balances and allowances. -/
structure Ledger where
  balances : Table (Currency × Address) Word
  /-- By token, owner and spender. -/
  allowances : Table (Address × Address × Address) Word

namespace Ledger

def empty : Ledger := ⟨∅, ∅⟩

def balance (l : Ledger) (currency : Currency) (account : Address) : Word :=
  l.balances.getD (currency, account) 0

/-- What a spender may still move for an owner. -/
def allowance (l : Ledger) (token owner spender : Address) : Word :=
  l.allowances.getD (token, owner, spender) 0

def setBalance (l : Ledger) (currency : Currency) (account : Address) (w : Word) : Ledger :=
  { l with balances := l.balances.set (currency, account) w }

/-- Lets a spender move an amount for an owner, in place of what was allowed before. -/
def approve (l : Ledger) (token owner spender : Address) (amount : Word) : Ledger :=
  { l with allowances := l.allowances.set (token, owner, spender) amount }

/-- Adds to a balance. -/
def credit (l : Ledger) (currency : Currency) (account : Address) (amount : Word) : Ledger :=
  l.setBalance currency account ((l.balance currency account).satAdd amount)

/-- Takes from a balance. -/
def debit (currency : Currency) (account : Address) (amount : Word) : Action Ledger PaymentError Unit := do
  let l ← get
  match (l.balance currency account).sub? amount with
  | some rest => set (l.setBalance currency account rest)
  | none => throw (.insufficientBalance account (l.balance currency account) amount)

/-- Moves an amount from one account to another. -/
def transfer (currency : Currency) (giver taker : Address) (amount : Word) :
    Action Ledger PaymentError Unit := do
  debit currency giver amount
  modify (·.credit currency taker amount)

/-- Moves an amount of a token on behalf of a spender, whose allowance it uses up. -/
def transferFrom (token spender giver taker : Address) (amount : Word) :
    Action Ledger PaymentError Unit := do
  let allowed := (← get).allowance token giver spender
  match allowed.sub? amount with
  | some rest =>
    transfer (.token token) giver taker amount
    modify (·.approve token giver spender rest)
  | none => throw (.insufficientAllowance giver spender allowed amount)

end Ledger

end TokenSale
