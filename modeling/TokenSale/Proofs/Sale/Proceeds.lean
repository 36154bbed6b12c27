import TokenSale.Proofs.Sale.Supply

/-!
# Proceeds and withdrawals

A sale keeps two sums, what it holds and what it has paid out. `Posted` says what one call does to them: a purchase
adds its cost to the first, a withdrawal moves all of the first to the second, and no other call touches either. Both
sums stop at the greatest word. As long as all costs together do not pass it, nothing is cut off, and the two sums are
those of the receipts: `Sale.balanced_of_deploy`.
-/

namespace TokenSale

/-! ## What a history says -/

namespace Entry

/-- The receipt of a withdrawal. -/
def withdrawal? (e : Entry) : Option WithdrawReceipt :=
  match e.request, e.reply with
  | .withdraw _, .ok (.withdrawn receipt) => some receipt
  | _, _ => none

theorem withdrawal?_refused (r : Request) (e : SaleError) : withdrawal? ⟨r, .error e⟩ = none := by
  cases r <;> rfl

theorem withdrawal?_of_purchase? {e : Entry} {bought : Address × MintReceipt}
    (h : e.purchase? = some bought) : e.withdrawal? = none := by
  obtain ⟨request, reply⟩ := e
  obtain ⟨call, order, rfl, -, -⟩ := purchase?_eq_some h
  rfl

end Entry

/-- The withdrawals of a history, the earliest first. -/
def withdrawals (entries : List Entry) : List WithdrawReceipt := entries.filterMap Entry.withdrawal?

/-- What the buyers were charged. -/
def costs (bought : List (Address × MintReceipt)) : Nat := (bought.map fun p => p.2.totalCost.toNat).sum

/-- What the recipients were paid. -/
def amounts (paid : List WithdrawReceipt) : Nat := (paid.map fun receipt => receipt.amount.toNat).sum

theorem withdrawals_snoc (past : List Entry) (e : Entry) :
    withdrawals (past ++ [e]) = withdrawals past ++ e.withdrawal?.toList := by
  rw [withdrawals, List.filterMap_append, List.filterMap_cons, List.filterMap_nil]
  cases e.withdrawal? <;> rfl

theorem costs_append (bought more : List (Address × MintReceipt)) :
    costs (bought ++ more) = costs bought + costs more := by
  rw [costs, List.map_append, List.sum_append]
  rfl

theorem amounts_append (paid more : List WithdrawReceipt) :
    amounts (paid ++ more) = amounts paid + amounts more := by
  rw [amounts, List.map_append, List.sum_append]
  rfl

namespace Sale

/-! ## One call -/

/-- What an entry says about the sums and the terms of the sale `s` that answered, and of the sale `t` that is left. Of
the terms, only the recipient and the owner may change. -/
structure Posted (s : Sale) (e : Entry) (t : Sale) : Prop where
  purchase : ∀ buyer receipt, e.purchase? = some (buyer, receipt) →
    t.proceeds = s.proceeds.satAdd receipt.totalCost ∧ t.totalWithdrawn = s.totalWithdrawn
  withdrawal : ∀ receipt, e.withdrawal? = some receipt →
    receipt.withdrawer = s.config.recipient ∧ receipt.amount = s.proceeds ∧
      receipt.totalWithdrawn = t.totalWithdrawn ∧ t.proceeds = 0 ∧
      t.totalWithdrawn = s.totalWithdrawn.satAdd s.proceeds
  idle : e.purchase? = none → e.withdrawal? = none →
    t.proceeds = s.proceeds ∧ t.totalWithdrawn = s.totalWithdrawn
  terms : t.config = { s.config with recipient := t.config.recipient, owner := t.config.owner }

variable {config : Config} {past : List Entry} {s t : Sale} {e : Entry}

/-- A call that neither sells nor pays out. -/
theorem posted_idle (hpurchase : e.purchase? = none) (hwithdrawal : e.withdrawal? = none)
    (hproceeds : t.proceeds = s.proceeds) (htotal : t.totalWithdrawn = s.totalWithdrawn)
    (hterms : t.config = { s.config with recipient := t.config.recipient, owner := t.config.owner }) :
    s.Posted e t where
  purchase := by
    intro buyer receipt h
    rw [hpurchase] at h
    cases h
  withdrawal := by
    intro receipt h
    rw [hwithdrawal] at h
    cases h
  idle _ _ := ⟨hproceeds, htotal⟩
  terms := hterms

end Sale

theorem Market.Effect.posted {m : Market} {r : Request} {reply : Except SaleError Reply} {s : Sale}
    {l : Ledger} (h : m.Effect r reply s l) : m.sale.Posted ⟨r, reply⟩ s := by
  cases h with
  | refused _ =>
    exact Sale.posted_idle (Entry.purchase?_refused _ _) (Entry.withdrawal?_refused _ _) rfl rfl rfl
  | minted _ _ =>
    refine ⟨?_, nofun, nofun, rfl⟩
    intro buyer receipt h
    cases h
    exact ⟨rfl, rfl⟩
  | withdrawn _ _ =>
    refine ⟨nofun, ?_, nofun, rfl⟩
    intro receipt h
    cases h
    exact ⟨rfl, rfl, rfl, rfl, rfl⟩
  | burned _ => exact Sale.posted_idle rfl rfl rfl rfl rfl
  | recipientSet _ => exact Sale.posted_idle rfl rfl rfl rfl rfl
  | ownerSet _ => exact Sale.posted_idle rfl rfl rfl rfl rfl

namespace Sale

variable {config : Config} {past : List Entry} {s t : Sale} {e : Entry}

theorem posted_answer (hs : s.InStock) (turn : Turn) :
    s.Posted (s.answer turn).1 (s.answer turn).2 := by
  obtain ⟨l, heffect⟩ := effect_answer hs turn
  -- the tier oracle that the call finds is neither a sum nor a term
  obtain ⟨hpurchase, hwithdrawal, hidle, hterms⟩ := heffect.posted
  exact ⟨hpurchase, hwithdrawal, hidle, hterms⟩

/-- A call adds the cost on its receipt to both sums together, and the amount on its receipt to what is paid out. -/
theorem Posted.sums (h : s.Posted e t)
    (hfit : s.proceeds.toNat + s.totalWithdrawn.toNat + costs e.purchase?.toList < Word.size) :
    t.proceeds.toNat + t.totalWithdrawn.toNat =
        s.proceeds.toNat + s.totalWithdrawn.toNat + costs e.purchase?.toList ∧
      t.totalWithdrawn.toNat = s.totalWithdrawn.toNat + amounts e.withdrawal?.toList := by
  cases hpurchase : e.purchase? with
  | some bought =>
    obtain ⟨buyer, receipt⟩ := bought
    obtain ⟨hproceeds, htotal⟩ := h.purchase buyer receipt hpurchase
    have hcost : costs [(buyer, receipt)] = receipt.totalCost.toNat := rfl
    rw [hpurchase, Option.toList_some, hcost] at hfit
    rw [Entry.withdrawal?_of_purchase? hpurchase, Option.toList_some, hcost, hproceeds, htotal,
      Word.toNat_satAdd]
    exact ⟨by omega, rfl⟩
  | none =>
    have hcost : costs [] = 0 := rfl
    rw [Option.toList_none, hcost]
    cases hwithdrawal : e.withdrawal? with
    | some receipt =>
      obtain ⟨-, hamount, -, hproceeds, htotal⟩ := h.withdrawal receipt hwithdrawal
      have hamounts : amounts [receipt] = s.proceeds.toNat := by rw [← hamount]; rfl
      rw [Option.toList_some, hamounts, hproceeds, htotal, Word.toNat_satAdd, Word.toNat_zero]
      omega
    | none =>
      obtain ⟨hproceeds, htotal⟩ := h.idle hpurchase hwithdrawal
      rw [hproceeds, htotal]
      exact ⟨rfl, rfl⟩

/-! ## Whole histories -/

/-- The sums of a sale deployed with `config` are those of its history, and its terms are those that it was deployed
with. -/
structure Balanced (config : Config) (entries : List Entry) (s : Sale) : Prop where
  earned : s.proceeds.toNat + s.totalWithdrawn.toNat = costs (purchases entries)
  paid : s.totalWithdrawn.toNat = amounts (withdrawals entries)
  terms : s.config = { config with recipient := s.config.recipient, owner := s.config.owner }

theorem costs_le_costs_snoc (past : List Entry) (e : Entry) :
    costs (purchases past) ≤ costs (purchases (past ++ [e])) := by
  rw [purchases_snoc, costs_append]
  exact Nat.le_add_right _ _

theorem Balanced.posted (h : Balanced config past s) (hposted : s.Posted e t)
    (hcosts : costs (purchases (past ++ [e])) < Word.size) : Balanced config (past ++ [e]) t := by
  have hearned := h.earned
  have hpaid := h.paid
  rw [purchases_snoc, costs_append, ← hearned] at hcosts
  obtain ⟨hboth, htotal⟩ := hposted.sums hcosts
  refine ⟨?_, ?_, ?_⟩
  · rw [hboth, hearned, purchases_snoc, costs_append]
  · rw [htotal, hpaid, withdrawals_snoc, amounts_append]
  · rw [hposted.terms, h.terms]

/-- A sale in stock, in balance unless its costs have passed the greatest word. -/
structure Kept (config : Config) (past : List Entry) (s : Sale) : Prop where
  inStock : s.InStock
  balanced : costs (purchases past) < Word.size → Balanced config past s

theorem kept_answer (h : Kept config past s) (turn : Turn) :
    Kept config (past ++ [(s.answer turn).1]) (s.answer turn).2 where
  inStock := inStock_answer h.inStock turn
  balanced := by
    intro hcosts
    have hbalanced := h.balanced (Nat.lt_of_le_of_lt (costs_le_costs_snoc past _) hcosts)
    exact hbalanced.posted (posted_answer h.inStock turn) hcosts

/-- **Proceeds accounting.** Whatever calls a deployed sale has answered, as long as the costs on all receipts of
buyers come to less than `2 ^ 256`: what it holds and what it has paid out come to these costs together, and what it
has paid out to the amounts on all receipts of withdrawals. Whatever call comes next is posted as `Posted` says: a
withdrawal names the current recipient, all that was held and the new sum paid out, and nothing but a purchase or a
withdrawal that goes through changes either sum. No term changes but the recipient and the owner. -/
theorem balanced_of_deploy {pricing : Pricing} {tiers : TierOracle}
    (h : (deploy config pricing tiers).1 = .ok s) (turns : List Turn)
    (hcosts : costs (purchases (s.trade turns).1) < Word.size) :
    Balanced config (s.trade turns).1 (s.trade turns).2 ∧
      ∀ turn, (s.trade turns).2.Posted ((s.trade turns).2.answer turn).1
        ((s.trade turns).2.answer turn).2 := by
  have hstart : Kept config [] s := by
    refine ⟨inStock_of_deploy h, fun _ => ?_⟩
    obtain ⟨rfl, -⟩ := deploy_eq_ok h
    exact ⟨rfl, rfl, rfl⟩
  have hkept : Kept config (s.trade turns).1 (s.trade turns).2 :=
    trade_induction (P := Kept config) (fun _ _ turn hpast => kept_answer hpast turn) hstart turns
  exact ⟨hkept.balanced hcosts, fun turn => posted_answer hkept.inStock turn⟩

/-- Two tokens are bought and paid out, a stranger fails to withdraw, the recipient hands over, one more token is
bought, the former recipient fails to withdraw and the new one does not. -/
def payoutTurns : List Turn :=
  let ledger := (Ledger.empty.credit .native (.truncate 2) (.ofUInt64 100)).credit .native (.truncate 1)
    (.ofUInt64 100)
  [⟨.mint ⟨.truncate 2, .ofUInt64 6, 0⟩ ⟨1, .ofUInt64 2, .ofUInt64 3⟩, ledger, .none⟩,
    ⟨.withdraw (.truncate 3), ledger, .none⟩,
    ⟨.withdraw .zero, ledger, .none⟩,
    ⟨.setRecipient .zero (.truncate 3), ledger, .none⟩,
    ⟨.mint ⟨.truncate 2, .ofUInt64 3, 0⟩ ⟨1, 1, .ofUInt64 3⟩, ledger, .none⟩,
    ⟨.withdraw .zero, ledger, .none⟩,
    ⟨.withdraw (.truncate 3), ledger, .none⟩]

theorem balanced_of_deploy_payoutTurns :
    (deploy flatConfig flatPricing .none).1 = .ok flatSale ∧
      costs (purchases (flatSale.trade payoutTurns).1) < Word.size ∧
      (withdrawals (flatSale.trade payoutTurns).1) =
        [⟨.zero, .ofUInt64 6, .ofUInt64 6⟩, ⟨.truncate 3, .ofUInt64 3, .ofUInt64 9⟩] ∧
      Balanced flatConfig (flatSale.trade payoutTurns).1 (flatSale.trade payoutTurns).2 := by
  have hdeploy : (deploy flatConfig flatPricing .none).1 = .ok flatSale := by rfl
  have hcosts : costs (purchases (flatSale.trade payoutTurns).1) < Word.size := by decide +kernel
  exact ⟨hdeploy, hcosts, by rfl, (balanced_of_deploy hdeploy payoutTurns hcosts).1⟩

end Sale

end TokenSale
