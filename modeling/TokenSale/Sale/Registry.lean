import TokenSale.Action
import TokenSale.Address
import TokenSale.Table

/-!
# The registry of tokens

Tokens are numbered from one in the order in which they are minted. Tokens minted together make a batch, and the
registry keeps one owner a batch. A burned token is gone, but it stays counted among the minted ones.
-/

namespace TokenSale

/-- Why a token cannot be minted, burned or looked up. -/
inductive TokenError
  | notOwner (caller : Address) (id : UInt64)
  | invalidToken (id : UInt64)
  | idsExhausted (quantity : UInt64)
deriving DecidableEq

def TokenError.message : TokenError → String
  | notOwner caller id => s!"NOT_OWNER: {caller} does not own token {id.toNat}"
  | invalidToken id => s!"INVALID_TOKEN: token {id.toNat} does not exist"
  | idsExhausted quantity => s!"IDS_EXHAUSTED: cannot mint {quantity.toNat} more tokens"

/-- The ids from `first` on and before `stop`. -/
structure IdRange where
  first : UInt64
  stop : UInt64
deriving DecidableEq

/-- Who owns which token. -/
structure Registry where
  /-- The first id and the owner of every batch, the latest batch first. -/
  batches : List (UInt64 × Address)
  burnedIds : List UInt64
  /-- The tokens ever minted to each account. -/
  minted : Table Address UInt64
  /-- The tokens that each account holds. -/
  balances : Table Address UInt64
  totalMinted : UInt64
  burned : UInt64

namespace Registry

def firstId : UInt64 := 1

def empty : Registry := ⟨[], [], ∅, ∅, 0, 0⟩

/-- Whether a token was minted and not burned. -/
def contains (r : Registry) (id : UInt64) : Bool :=
  decide (firstId ≤ id) && decide (id - firstId < r.totalMinted) && !r.burnedIds.contains id

/-- The owner of the batch that an id falls into: the latest one that starts at the id or before. -/
def batchOwner? (r : Registry) (id : UInt64) : Option Address :=
  (r.batches.find? fun batch => decide (batch.1 ≤ id)).map Prod.snd

def owner (r : Registry) (id : UInt64) : Except TokenError Address :=
  if r.contains id then
    match r.batchOwner? id with
    | some account => .ok account
    | none => .error (.invalidToken id)
  else .error (.invalidToken id)

def balance (r : Registry) (account : Address) : UInt64 := r.balances.getD account 0

/-- The tokens ever minted to an account. -/
def numberMinted (r : Registry) (account : Address) : UInt64 := r.minted.getD account 0

def totalSupply (r : Registry) : UInt64 := r.totalMinted - r.burned

/-- The registry after a batch of tokens has been minted. -/
def addBatch (r : Registry) (owner : Address) (quantity : UInt64) : Registry :=
  { r with
    batches := if 0 < quantity then (firstId + r.totalMinted, owner) :: r.batches else r.batches
    minted := r.minted.set owner (r.numberMinted owner + quantity)
    balances := r.balances.set owner (r.balance owner + quantity)
    totalMinted := r.totalMinted + quantity }

/-- Mints tokens to an account. Nothing is minted when the ids would run out. -/
def mint (account : Address) (quantity : UInt64) : Action Registry TokenError IdRange := do
  let r ← get
  let first := firstId + r.totalMinted
  if first.toNat + quantity.toNat < UInt64.size then
    set (r.addBatch account quantity)
    pure ⟨first, first + quantity⟩
  else throw (.idsExhausted quantity)

/-- The registry after a token of an account has been burned. -/
def removeToken (r : Registry) (owner : Address) (id : UInt64) : Registry :=
  { r with
    burnedIds := id :: r.burnedIds
    balances := match r.balances.get? owner with
      | some n => r.balances.set owner (n - 1)
      | none => r.balances
    burned := r.burned + 1 }

/-- Burns a token, which only its owner may do. -/
def burn (caller : Address) (id : UInt64) : Action Registry TokenError Unit := do
  let r ← get
  match r.owner id with
  | .error e => throw e
  | .ok account => if account = caller then set (r.removeToken caller id) else throw (.notOwner caller id)

end Registry

end TokenSale
