import TokenSale.Proofs.Sale.Calls

/-!
# Purchases are paid for

A purchase takes its cost from the buyer, gives it to the account of the sale and moves no other money:
`Sale.Reachable.paid_of_minted`. A sale that buys from itself gives the cost to the account that it took it from, and
has as much as before (`not_paid_exactly`). Where the balance of the sale and the cost are no word together, nothing is
said here of the balance that the sale has then.
-/

namespace TokenSale

/-- A payment from a buyer to a seller, and what it leaves alone. -/
structure Ledger.Paid (l l' : Ledger) (currency : Currency) (buyer seller : Address) (cost : Word) :
    Prop where
  taken : buyer ≠ seller →
    (l'.balance currency buyer).toNat + cost.toNat = (l.balance currency buyer).toNat
  given : buyer ≠ seller → (l.balance currency seller).toNat + cost.toNat < Word.size →
    (l'.balance currency seller).toNat = (l.balance currency seller).toNat + cost.toNat
  /-- A seller that buys from itself has as much as before. -/
  own : buyer = seller → l'.balance currency buyer = l.balance currency buyer
  kept : ∀ currency' account, (currency', account) ≠ (currency, buyer) →
    (currency', account) ≠ (currency, seller) →
    l'.balance currency' account = l.balance currency' account
  /-- A payment in tokens uses up the allowance of the seller. -/
  spent : ∀ token, currency = .token token →
    (l'.allowance token buyer seller).toNat + cost.toNat = (l.allowance token buyer seller).toNat
  allowed : ∀ token owner spender, (currency = .token token → (owner, spender) ≠ (buyer, seller)) →
    l'.allowance token owner spender = l.allowance token owner spender

namespace Market

variable {config : Config} {caller : Address} {cost : Word} {l l' : Ledger}

theorem allowance_of_charge (h : (charge config caller cost).perform l = (.ok (), l'))
    {token owner spender : Address}
    (hother : config.currency = .token token → (owner, spender) ≠ (caller, config.address)) :
    l'.allowance token owner spender = l.allowance token owner spender := by
  obtain ⟨-, ⟨-, rfl⟩ | ⟨token', hcurrency, -, rfl⟩⟩ := charge_cases h
  · rfl
  · have hne : (token, owner, spender) ≠ (token', caller, config.address) := by
      intro heq
      obtain ⟨rfl, hpair⟩ := Prod.mk.inj heq
      exact hother hcurrency hpair
    rw [Ledger.allowance_approve, if_neg hne, Ledger.allowance_moved]

theorem allowance_spent (h : (charge config caller cost).perform l = (.ok (), l')) {token : Address}
    (htoken : config.currency = .token token) :
    (l'.allowance token caller config.address).toNat + cost.toNat =
      (l.allowance token caller config.address).toNat := by
  obtain ⟨-, ⟨hnative, -⟩ | ⟨token', hcurrency, hallowed, rfl⟩⟩ := charge_cases h
  · rw [htoken] at hnative
    cases hnative
  · rw [htoken] at hcurrency
    obtain rfl := Currency.token.inj hcurrency
    rw [Word.le_def] at hallowed
    rw [Ledger.allowance_approve, if_pos rfl, Word.toNat_satSub]
    omega

theorem paid_of_charge (h : (charge config caller cost).perform l = (.ok (), l')) :
    l.Paid l' config.currency caller config.address cost where
  taken := by
    intro hne
    have hle := (charge_cases h).1
    rw [Word.le_def] at hle
    rw [balance_of_charge h, Ledger.balance_moved_giver hne, Word.toNat_satSub]
    omega
  given := by
    intro hne hfits
    rw [balance_of_charge h, Ledger.balance_moved_taker hne, Word.toNat_satAdd_of_lt hfits]
  own := by
    intro heq
    have hle := (charge_cases h).1
    rw [balance_of_charge h, ← heq]
    exact Ledger.balance_moved_self hle
  kept := by
    intro currency' account hbuyer hseller
    rw [balance_of_charge h, Ledger.balance_moved_of_ne hbuyer hseller]
  spent _ := allowance_spent h
  allowed _ _ _ := allowance_of_charge h

end Market

namespace Sale

/-- **Purchases are paid for.** On every sale that calls lead to, and against any ledger, a purchase by anyone but the
sale itself lowers the balance of the buyer by its cost, and raises that of the sale by as much if the sum is a word. A
purchase by the sale itself leaves its balance as it was. Whoever the buyer is, no other balance changes, and of the
allowances only that of the sale, by the cost. -/
theorem Reachable.paid_of_minted {s : Sale} (hs : s.Reachable) (l : Ledger) (log : List Record)
    (call : Call) (order : Order) {receipt : MintReceipt} {t : Market}
    (h : (Market.mint call order).perform ⟨s, l, log⟩ = (.ok receipt, t)) :
    l.Paid t.ledger s.config.currency call.caller s.config.address receipt.totalCost := by
  rcases Market.mint_cases (m := ⟨s, l, log⟩) hs.inStock call order with
    ⟨e, records, -, hmint⟩ | ⟨p, l', records, -, hcharge, hmint⟩
  · rw [hmint] at h
    cases h
  · rw [hmint] at h
    cases h
    exact Market.paid_of_charge hcharge

/-- The flat sale, for a token. -/
def flatTokenSale : Sale :=
  { flatSale with config := { flatConfig with currency := .token (.truncate 9) } }

/-- Ten tokens of a buyer, of which the sale may take eight. -/
def buyerLedger : Ledger :=
  (Ledger.empty.credit (.token (.truncate 9)) (.truncate 2) (.ofUInt64 10)).approve (.truncate 9)
    (.truncate 2) (.truncate 1) (.ofUInt64 8)

theorem paid_of_minted_flatTokenSale :
    flatTokenSale.Reachable ∧ ∃ receipt t,
      (Market.mint ⟨.truncate 2, 0, 0⟩ ⟨1, .ofUInt64 2, .ofUInt64 3⟩).perform
        ⟨flatTokenSale, buyerLedger, []⟩ = (.ok receipt, t) ∧
      receipt.totalCost = .ofUInt64 6 ∧
      buyerLedger.Paid t.ledger (.token (.truncate 9)) (.truncate 2) (.truncate 1) (.ofUInt64 6) := by
  have hs : flatTokenSale.Reachable :=
    .deployed (show (deploy flatTokenSale.config flatPricing .none).1 = .ok flatTokenSale from rfl)
  have hresult : ((Market.mint ⟨.truncate 2, 0, 0⟩ ⟨1, .ofUInt64 2, .ofUInt64 3⟩).perform
      ⟨flatTokenSale, buyerLedger, []⟩).1 =
        .ok ⟨1, 2, .ofUInt64 3, .ofUInt64 6, 0⟩ := by rfl
  have hpaid := hs.paid_of_minted buyerLedger [] ⟨.truncate 2, 0, 0⟩ ⟨1, .ofUInt64 2, .ofUInt64 3⟩
    (Prod.ext hresult rfl)
  exact ⟨hs, _, _, Prod.ext hresult rfl, rfl, hpaid⟩

/-- A sale with six coins. -/
def ownLedger : Ledger := Ledger.empty.credit .native (.truncate 1) (.ofUInt64 6)

/-- A cost of six that a sale which buys from itself does not lose. -/
theorem not_paid_exactly :
    flatSale.Reachable ∧ ∃ receipt t,
      (Market.mint ⟨flatConfig.address, .ofUInt64 6, 0⟩ ⟨.ofUInt64 2, .ofUInt64 2, .ofUInt64 3⟩).perform
        ⟨flatSale, ownLedger, []⟩ = (.ok receipt, t) ∧
      (t.ledger.balance .native flatConfig.address).toNat + receipt.totalCost.toNat ≠
        (ownLedger.balance .native flatConfig.address).toNat := by
  have hresult : ((Market.mint ⟨flatConfig.address, .ofUInt64 6, 0⟩
      ⟨.ofUInt64 2, .ofUInt64 2, .ofUInt64 3⟩).perform ⟨flatSale, ownLedger, []⟩).1 =
        .ok ⟨1, 2, .ofUInt64 3, .ofUInt64 6, 0⟩ := by rfl
  exact ⟨.deployed (show (deploy flatConfig flatPricing .none).1 = .ok flatSale from rfl), _, _, Prod.ext hresult rfl,
    by decide +kernel⟩

end Sale

end TokenSale
