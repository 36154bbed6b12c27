import TokenSale.Proofs.Sale.Compiled
import TokenSale.Proofs.Sale.Supply

/-!
# Caps

A sale that is priced under a cap (`Expr.capped`) lets a buyer have no more units than what the cap leaves over the units
ever minted to that buyer. These are the units on the receipts of the buyer (`Booked`), which burning does not lower. So
no receipt takes a buyer past the cap (`units_le_of_minted`), and none of all that an account buys in a history does
(`Sale.numberMinted_le_of_deploy`).
-/

namespace TokenSale

namespace Expr

/-- What a cap leaves to the buyer. -/
def allowance (cap : Word) : Expr := aggregate .sub [constant cap, numberMinted account]

/-- The most units that a buyer may take, under a cap on all that the buyer ever gets. -/
def capped (cap : Word) (most : Expr) : Expr := aggregate .min [most, allowance cap]

variable {s : Surroundings} {buyer : Address} {units : Word}

theorem denote_allowance (cap : Word) (h : s.context = Pricing.buyContext buyer units) :
    (allowance cap).denote s = some (cap.satSub (s.minted buyer)) := by
  have hminted : (numberMinted account).denote s = some (s.minted buyer) := by
    rw [denote, denote_account h, Option.bind_eq_bind, Option.bind_some, Address.ofWord_toWord]
    rfl
  rw [allowance, denote, denoteAll, denoteAll, denoteAll, hminted, denote]
  rfl

theorem le_of_capped {cap w : Word} {most : Expr} (hcontext : s.context = Pricing.buyContext buyer units)
    (h : (capped cap most).denote s = some w) : w.toNat ≤ cap.toNat - (s.minted buyer).toNat := by
  rw [capped, denote, denoteAll, denoteAll, denoteAll, denote_allowance cap hcontext] at h
  cases hmost : most.denote s with
  | none =>
    rw [hmost] at h
    cases h
  | some x =>
    rw [hmost] at h
    have hw : min x (cap.satSub (s.minted buyer)) = w := Option.some.inj h
    rw [← hw, Word.toNat_min, Word.toNat_satSub]
    exact Nat.min_le_right _ _

end Expr

namespace Sale

variable {config : Config} {cap : Word} {most unitPrice : Expr} {past : List Entry} {s : Sale}

/-- A history in which nobody has bought more than the cap, of a sale that is priced under it. -/
structure Capped (config : Config) (cap : Word) (most unitPrice : Expr) (past : List Entry) (s : Sale) :
    Prop where
  booked : Booked config past s
  pricing : s.pricing.CompiledFrom (.capped cap most) unitPrice
  unitsOf_le : ∀ account, unitsOf account (purchases past) ≤ cap.toNat

theorem Capped.units_le_of_minted (h : Capped config cap most unitPrice past s) {turn : Turn}
    {call : Call} {order : Order} {receipt : MintReceipt} (hrequest : turn.request = .mint call order)
    (hreply : (s.answer turn).1.reply = .ok (.minted receipt)) :
    unitsOf call.caller (purchases past) + receipt.units.toNat ≤ cap.toNat := by
  have hstock := h.booked.inStock
  have hpricing : (s.met turn).sale.pricing.CompiledFrom (.capped cap most) unitPrice := h.pricing
  obtain ⟨p, records, hassess, rfl⟩ := assess_of_minted hstock hrequest hreply
  obtain ⟨units, hunits, hle, -⟩ := assess_of_compiled hpricing hassess
  have hleft := Expr.le_of_capped rfl hunits
  have hminted : (s.numberMinted call.caller).toNat = unitsOf call.caller (purchases past) :=
    h.booked.tallies.minted_to call.caller
  have hsame : ((s.met turn).sale.surroundings call.caller ((s.met turn).sale.wanted order)
      call.time).minted call.caller = s.numberMinted call.caller := rfl
  rw [hsame, hminted] at hleft
  have hlow := ((hstock.met turn).toNat_units (units_le_remaining hassess)).1
  have hcap := h.unitsOf_le call.caller
  show unitsOf call.caller (purchases past) + p.units.lowUInt64.toNat ≤ cap.toNat
  rw [Word.le_def] at hle
  rw [hlow]
  omega

theorem capped_answer (h : Capped config cap most unitPrice past s) (turn : Turn) :
    Capped config cap most unitPrice (past ++ [(s.answer turn).1]) (s.answer turn).2 where
  booked := booked_answer h.booked turn
  pricing := by
    rw [pricing_answer h.booked.inStock turn]
    exact h.pricing
  unitsOf_le := by
    intro account
    rw [purchases_snoc]
    cases hpurchase : (s.answer turn).1.purchase? with
    | none =>
      rw [Option.toList_none, List.append_nil]
      exact h.unitsOf_le account
    | some bought =>
      obtain ⟨buyer, receipt⟩ := bought
      obtain ⟨call, order, hrequest, hreply, rfl⟩ := Entry.purchase?_eq_some hpurchase
      rw [Option.toList_some, unitsOf_snoc]
      split
      · rename_i heq
        subst heq
        exact h.units_le_of_minted hrequest hreply
      · exact h.unitsOf_le account

/-- **Caps hold over whole histories.** Whatever calls a sale that is priced under a cap answers, no account is ever
minted more units than the cap, and the receipts of an account never come to more, whatever is burned between them. -/
theorem numberMinted_le_of_deploy {pricing : Pricing} {tiers : TierOracle}
    (hpricing : pricing.CompiledFrom (.capped cap most) unitPrice)
    (hdeploy : (deploy config pricing tiers).1 = .ok s) (turns : List Turn) (account : Address) :
    (s.trade turns).2.numberMinted account ≤ cap ∧
      unitsOf account (purchases (s.trade turns).1) ≤ cap.toNat := by
  have hstart : Capped config cap most unitPrice [] s := by
    refine ⟨booked_of_deploy hdeploy, ?_, fun _ => Nat.zero_le _⟩
    obtain ⟨rfl, -⟩ := deploy_eq_ok hdeploy
    exact hpricing
  have hcapped : Capped config cap most unitPrice (s.trade turns).1 (s.trade turns).2 :=
    trade_induction (P := Capped config cap most unitPrice) (fun _ _ turn hpast => capped_answer hpast turn)
      hstart turns
  have hunits := hcapped.unitsOf_le account
  refine ⟨?_, hunits⟩
  rw [Word.le_def, hcapped.booked.tallies.minted_to account]
  exact hunits

/-- Two units at a time, and three for each buyer, at a price of three. -/
def cappedPricing : Pricing where
  script :=
    { sources := [[Instruction.constant.opcode, 0, Instruction.constant.opcode, 1,
        Instruction.context.opcode, 0, Instruction.numberMinted.opcode, 0,
        (Instruction.aggregate .sub).opcode, 2, (Instruction.aggregate .min).opcode, 2,
        Instruction.constant.opcode, 1]]
      constants := [.ofUInt64 2, .ofUInt64 3] }
  summary := ⟨7, 2, 3, 1⟩
  maxSteps := defaultMaxSteps
  analyzed := by decide
  finalDepth_eq := rfl
  instructions_le := by decide

theorem compiledFrom_cappedPricing : cappedPricing.CompiledFrom
    (.capped (.ofUInt64 3) (.constant (.ofUInt64 2))) (.constant (.ofUInt64 3)) where
  script := by rfl
  maxUnits_stackFree := by decide
  unitPrice_stackFree := by decide

def cappedSale : Sale := ⟨flatConfig, cappedPricing, .empty, .none, 0, 0⟩

/-- A buyer takes two of four tokens, burns one of them and asks for two others. -/
def cappedTurns : List Turn :=
  let ledger := Ledger.empty.credit .native (.truncate 2) (.ofUInt64 100)
  [⟨.mint ⟨.truncate 2, .ofUInt64 12, 0⟩ ⟨1, .ofUInt64 4, .ofUInt64 3⟩, ledger, .none⟩,
    ⟨.burn (.truncate 2) 1, ledger, .none⟩,
    ⟨.mint ⟨.truncate 2, .ofUInt64 12, 0⟩ ⟨1, .ofUInt64 2, .ofUInt64 3⟩, ledger, .none⟩]

/-- The buyer gets one more, for three in all, though only two of them are left. -/
theorem numberMinted_le_of_deploy_cappedTurns :
    cappedPricing.CompiledFrom (.capped (.ofUInt64 3) (.constant (.ofUInt64 2)))
        (.constant (.ofUInt64 3)) ∧
      (deploy flatConfig cappedPricing .none).1 = .ok cappedSale ∧
      (purchases (cappedSale.trade cappedTurns).1).map (fun p => (p.2.firstId, p.2.units)) =
        [(1, 2), (3, 1)] ∧
      (cappedSale.trade cappedTurns).2.registry.balance (.truncate 2) = 2 ∧
      (cappedSale.trade cappedTurns).2.numberMinted (.truncate 2) ≤ .ofUInt64 3 ∧
      unitsOf (.truncate 2) (purchases (cappedSale.trade cappedTurns).1) ≤ 3 := by
  have hdeploy : (deploy flatConfig cappedPricing .none).1 = .ok cappedSale := by rfl
  obtain ⟨hminted, hunits⟩ :=
    numberMinted_le_of_deploy compiledFrom_cappedPricing hdeploy cappedTurns (.truncate 2)
  exact ⟨compiledFrom_cappedPricing, hdeploy, by decide +kernel, by decide +kernel, hminted, hunits⟩

end Sale

end TokenSale
