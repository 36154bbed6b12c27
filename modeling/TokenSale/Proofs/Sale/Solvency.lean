import TokenSale.Proofs.Sale.Calls

/-!
# A sale can pay its proceeds out

The proceeds of a sale are a number in the sale, and the money is a balance in the ledger. `Market.Solvent` says that
the balance covers the number. Every call keeps this, unless the sale buys from itself (`solvent_serve`), and so does
every use of the ledger that takes nothing from the account of the sale (`Ledger.le_balance_serve`). Both sums stop at
the greatest word, and the one that is behind stays behind. Hence no withdrawal is refused for want of money:
`Custody.withdraw_pays`.
-/

namespace TokenSale

/-! ## Uses of the ledger -/

/-- The balance that a use of the ledger is to take from, and how much. -/
def LedgerCall.taken? : LedgerCall → Option ((Currency × Address) × Word)
  | .credit _ _ _ => none
  | .approve _ _ _ _ => none
  | .transfer currency giver _ amount => some ((currency, giver), amount)
  | .transferFrom token _ giver _ amount => some ((.token token, giver), amount)

namespace Ledger

/-- A use of the ledger that takes something from a balance. One that is refused takes nothing. -/
def Debits (l : Ledger) (call : LedgerCall) (currency : Currency) (account : Address) : Prop :=
  ((serve call).perform l).1 = .ok () ∧
    ∃ amount, amount ≠ 0 ∧ call.taken? = some ((currency, account), amount)

variable {l : Ledger} {call : LedgerCall} {currency : Currency} {account : Address}

theorem eq_zero_of_not_debits (h : ¬ l.Debits call currency account)
    (hok : ((serve call).perform l).1 = .ok ()) {giver : Currency × Address} {amount : Word}
    (htaken : call.taken? = some (giver, amount)) (hgiver : (currency, account) = giver) :
    amount = 0 := by
  by_contra hne
  subst hgiver
  exact h ⟨hok, amount, hne, htaken⟩

theorem le_balance_serve (h : ¬ l.Debits call currency account) :
    l.balance currency account ≤ ((serve call).perform l).2.balance currency account := by
  -- Only a transfer that goes through is known to take nothing, so the result stays beside the effect.
  have hzero : ∀ giver amount, ((serve call).perform l).1 = .ok () → call.taken? = some (giver, amount) →
      (currency, account) = giver → amount = 0 := fun _ _ hok => eq_zero_of_not_debits h hok
  have heffect := effect_serve l call
  revert hzero heffect
  rcases (serve call).perform l with ⟨result, l'⟩
  intro hzero heffect
  cases heffect with
  | refused => exact Nat.le_refl _
  | credited currency' account' amount =>
    show l.balance currency account ≤ (l.credit currency' account' amount).balance currency account
    rw [credit, balance_setBalance]
    split
    · rename_i heq
      obtain ⟨rfl, rfl⟩ := Prod.mk.inj heq
      exact Word.le_satAdd _ _
    · exact Nat.le_refl _
  | approved token owner spender amount => exact Nat.le_refl _
  | transferred hle => exact le_balance_moved hle (hzero _ _ rfl rfl)
  | transferredFrom _ hle => exact le_balance_moved hle (hzero _ _ rfl rfl)

end Ledger

/-! ## Solvency -/

namespace Market

/-- The account of the sale holds the proceeds. -/
def Solvent (m : Market) : Prop :=
  m.sale.proceeds ≤ m.ledger.balance m.sale.config.currency m.sale.config.address

/-- A purchase that the sale makes itself, and that is not refused. -/
def BuysFromItself (m : Market) (r : Request) : Prop :=
  ∃ call order reply t, r = .mint call order ∧ call.caller = m.sale.config.address ∧
    (serve r).perform m = (.ok reply, t)

theorem solvent_serve {m : Market} (hm : m.sale.InStock) (hsolvent : m.Solvent) {r : Request}
    (hself : ¬ m.BuysFromItself r) : ((serve r).perform m).2.Solvent := by
  have heffect := effect_serve hm r
  revert heffect
  rcases hserve : (serve r).perform m with ⟨reply, s, l, log⟩
  intro heffect
  cases heffect with
  | refused _ => exact hsolvent
  | @minted call order p records _ hassess hcharge =>
    have hne : call.caller ≠ m.sale.config.address := fun hcaller =>
      hself ⟨call, order, _, _, rfl, hcaller, hserve⟩
    show m.sale.proceeds.satAdd p.cost ≤ l.balance m.sale.config.currency m.sale.config.address
    -- Both sums stop at the greatest word, and the order of what is summed survives that.
    rw [balance_of_charge hcharge, Ledger.balance_moved_taker hne]
    exact Word.satAdd_le_satAdd hsolvent p.cost
  | withdrawn _ _ => exact Nat.zero_le _
  | burned _ => exact hsolvent
  | recipientSet _ => exact hsolvent
  | ownerSet _ => exact hsolvent

/-- The markets that a deployed sale, on any ledger, is led to by calls and by uses of the ledger, as long as the sale
does not buy from itself and nobody takes money from its account in its currency. The tier oracle may change at
will. -/
inductive Custody : Market → Prop
  | opened {config : Config} {pricing : Pricing} {tiers : TierOracle} {s : Sale} (l : Ledger)
      (log : List Record) : (Sale.deploy config pricing tiers).1 = .ok s → Custody ⟨s, l, log⟩
  | retiered {m : Market} (tiers : TierOracle) :
      Custody m → Custody { m with sale := { m.sale with tiers := tiers } }
  | called {m : Market} (r : Request) :
      Custody m → ¬ m.BuysFromItself r → Custody ((serve r).perform m).2
  | used {m : Market} (call : LedgerCall) :
      Custody m → ¬ m.ledger.Debits call m.sale.config.currency m.sale.config.address →
      Custody { m with ledger := ((Ledger.serve call).perform m.ledger).2 }

theorem Custody.reachable {m : Market} (hm : m.Custody) : m.sale.Reachable := by
  induction hm with
  | opened l log h => exact .deployed h
  | retiered tiers _ ih => exact .retiered tiers ih
  | called r _ _ ih => exact .called _ _ r ih
  | used call _ _ ih => exact ih

theorem Custody.solvent {m : Market} (hm : m.Custody) : m.Solvent := by
  induction hm with
  | opened l log h =>
    obtain ⟨rfl, -⟩ := Sale.deploy_eq_ok h
    exact Nat.zero_le _
  | retiered tiers _ ih => exact ih
  | called r hm hself ih => exact solvent_serve hm.reachable.inStock ih hself
  | used call _ hdebits ih => exact Nat.le_trans ih (Ledger.le_balance_serve hdebits)

/-! ## Withdrawals -/

theorem Solvent.result_withdraw {m : Market} (h : m.Solvent) (caller : Address) :
    ((withdraw caller).perform m).1 =
      if caller ≠ m.sale.config.recipient then .error (.recipientOnly caller)
      else if m.sale.proceeds = 0 then .error .zeroFund
      else .ok m.sale.withdrawReceipt := by
  rw [Solvent] at h
  rw [perform_withdraw]
  dsimp only
  rw [if_pos h]
  split
  · rfl
  · split
    · rfl
    · rfl

/-- **A sale can pay its proceeds out.** In every market that a deployed sale is led to, as long as it does not buy
from itself and nobody takes money from its account in its currency, that account holds the proceeds. If there are
any, the recipient can withdraw exactly these, and no withdrawal by anyone is refused for want of money. -/
theorem Custody.withdraw_pays {m : Market} (hm : m.Custody) :
    m.sale.proceeds ≤ m.ledger.balance m.sale.config.currency m.sale.config.address ∧
      (m.sale.proceeds ≠ 0 → ∃ receipt t,
        (withdraw m.sale.config.recipient).perform m = (.ok receipt, t) ∧
        receipt.amount = m.sale.proceeds) ∧
      ∀ caller e t, (withdraw caller).perform m = (.error e, t) → e.reason ≠ "PAYMENT_FAILED" := by
  refine ⟨hm.solvent, ?_, ?_⟩
  · intro hproceeds
    have hresult := hm.solvent.result_withdraw m.sale.config.recipient
    rw [if_neg (not_not.mpr rfl), if_neg hproceeds] at hresult
    exact ⟨m.sale.withdrawReceipt, _, Prod.ext hresult rfl, rfl⟩
  · intro caller e t h
    have hresult := hm.solvent.result_withdraw caller
    rw [h] at hresult
    dsimp only at hresult
    split at hresult
    · cases hresult
      show "RECIPIENT_ONLY" ≠ "PAYMENT_FAILED"
      decide
    · split at hresult
      · cases hresult
        show "ZERO_FUND" ≠ "PAYMENT_FAILED"
        decide
      · cases hresult

/-- The flat sale, on a ledger that gives it as much money as there can be. -/
def fullMarket : Market :=
  ⟨Sale.flatSale, (Ledger.empty.credit .native (.truncate 1) .greatest).credit .native (.truncate 2)
    (.ofUInt64 10), []⟩

/-- The full market after two tokens are sold. -/
def soldMarket : Market := ((serve Sale.pairRequest).perform fullMarket).2

/-- One more coin for the sale, from the buyer. -/
def gift : LedgerCall := .transfer .native (.truncate 2) (.truncate 1) 1

theorem withdraw_pays_soldMarket :
    let m := { soldMarket with ledger := ((Ledger.serve gift).perform soldMarket.ledger).2 }
    m.Custody ∧ m.sale.proceeds = .ofUInt64 6 ∧ m.ledger.balance .native (.truncate 1) = .greatest ∧
      ∃ receipt t, (withdraw .zero).perform m = (.ok receipt, t) ∧ receipt.amount = .ofUInt64 6 := by
  intro m
  have hopened : fullMarket.Custody :=
    .opened _ _ (show (Sale.deploy Sale.flatConfig Sale.flatPricing .none).1 = .ok Sale.flatSale from rfl)
  have hself : ¬ fullMarket.BuysFromItself Sale.pairRequest := by
    rintro ⟨call, order, reply, t, hr, hcaller, -⟩
    cases hr
    revert hcaller
    decide
  have hdebits : ¬ soldMarket.ledger.Debits gift .native (.truncate 1) := by
    rintro ⟨-, amount, -, htaken⟩
    have hgiver : Address.truncate 2 = .truncate 1 := congrArg (·.1.2) (Option.some.inj htaken)
    revert hgiver
    decide
  have hcustody : m.Custody := .used gift (.called _ hopened hself) hdebits
  have hproceeds : m.sale.proceeds = .ofUInt64 6 := by rfl
  obtain ⟨-, hpays, -⟩ := hcustody.withdraw_pays
  obtain ⟨receipt, t, hwithdraw, hamount⟩ := hpays (by rw [hproceeds]; decide)
  exact ⟨hcustody, hproceeds, by rfl, receipt, t, hwithdraw, hamount.trans hproceeds⟩

end Market

end TokenSale
