import TokenSale.Proofs.Registry.Operations
import TokenSale.Proofs.Sale.Ledger
import TokenSale.Sale.Market

/-!
# Purchases in two parts

A purchase first decides what the buyer gets for how much, and only then moves money and mints. `Sale.assess` is
the first part, which changes nothing but the log, and `Market.settle` the second: `perform_mint`.
-/

namespace TokenSale

/-- What a buyer gets for how much. -/
structure Purchase where
  units : Word
  unitPrice : Word
  cost : Word

/-- A refusal for want of payment. -/
def SaleError.IsPayment (e : SaleError) : Prop :=
  (∃ value cost, e = .insufficientFund value cost) ∨ ∃ cause, e = .payment cause

theorem SaleError.IsPayment.ne_token {e : SaleError} (h : e.IsPayment) (cause : TokenError) :
    e ≠ .token cause := by
  rcases h with ⟨value, cost, rfl⟩ | ⟨cause', rfl⟩
  · nofun
  · nofun

/-- What a sale makes of an order before any money moves. -/
def Sale.assess (s : Sale) (call : Call) (order : Order) : Except SaleError Purchase × List Record :=
  let wanted := min order.desired (.ofUInt64 s.remaining)
  if order.minimum = 0 then (.error .zeroMinimum, [])
  else if order.desired < order.minimum then
    (.error (.minimumOverDesired order.minimum order.desired), [])
  else if wanted < order.minimum then (.error (.insufficientStock order.minimum wanted), [])
  else match s.quote call.caller wanted call.time with
    | (.error fault, records) => (.error (.script fault), records)
    | (.ok q, records) =>
      let units := min wanted q.maxUnits
      if units < order.minimum then (.error (.insufficientStock order.minimum units), records)
      else if order.maximumPrice < q.unitPrice then
        (.error (.maximumPrice q.unitPrice order.maximumPrice), records)
      else match units.mul? q.unitPrice with
        | none => (.error (.costOverflow units q.unitPrice), records)
        | some cost => (.ok ⟨units, q.unitPrice, cost⟩, records)

namespace Sale

/-- All that an accepted order has passed, and what comes of it. -/
theorem assess_eq_ok {s : Sale} {call : Call} {order : Order} {p : Purchase} {records : List Record}
    (h : s.assess call order = (.ok p, records)) :
    let wanted := min order.desired (.ofUInt64 s.remaining)
    order.minimum ≠ 0 ∧ order.minimum ≤ order.desired ∧
      ∃ q, s.quote call.caller wanted call.time = (.ok q, records) ∧ p.units = min wanted q.maxUnits ∧
        order.minimum ≤ p.units ∧ p.unitPrice = q.unitPrice ∧ q.unitPrice ≤ order.maximumPrice ∧
        p.units.mul? q.unitPrice = some p.cost := by
  rw [assess] at h
  split at h
  · cases h
  rename_i hmin
  split at h
  · cases h
  rename_i hover
  split at h
  · cases h
  split at h
  · cases h
  rename_i q records' hquote
  dsimp only at h
  split at h
  · cases h
  rename_i hunits
  split at h
  · cases h
  rename_i hprice
  split at h
  · cases h
  rename_i cost hcost
  cases h
  exact ⟨hmin, Nat.not_lt.mp hover, q, hquote, rfl, Nat.not_lt.mp hunits, rfl, Nat.not_lt.mp hprice, hcost⟩

/-- Why an order is declined before any money moves. -/
inductive Declines (s : Sale) (call : Call) (order : Order) : SaleError → Prop
  | zeroMinimum : order.minimum = 0 → Declines s call order .zeroMinimum
  | minimumOverDesired : order.desired < order.minimum →
      Declines s call order (.minimumOverDesired order.minimum order.desired)
  | insufficientStock {available : Word} : available ≤ .ofUInt64 s.remaining →
      available < order.minimum → Declines s call order (.insufficientStock order.minimum available)
  | script {fault : Fault} {records : List Record} :
      s.quote call.caller (min order.desired (.ofUInt64 s.remaining)) call.time =
        (.error fault, records) → Declines s call order (.script fault)
  | maximumPrice {price : Word} : order.maximumPrice < price →
      Declines s call order (.maximumPrice price order.maximumPrice)
  | costOverflow {units price : Word} : units.mul? price = none →
      Declines s call order (.costOverflow units price)

theorem declines_of_assess {s : Sale} {call : Call} {order : Order} {e : SaleError}
    {records : List Record} (h : s.assess call order = (.error e, records)) :
    s.Declines call order e := by
  have hwanted : min order.desired (.ofUInt64 s.remaining) ≤ .ofUInt64 s.remaining := by
    rw [Word.le_def, Word.toNat_min]
    exact Nat.min_le_right _ _
  rw [assess] at h
  split at h
  · rename_i hmin
    cases h
    exact .zeroMinimum hmin
  split at h
  · rename_i hover
    cases h
    exact .minimumOverDesired hover
  split at h
  · rename_i hshort
    cases h
    exact .insufficientStock hwanted hshort
  split at h
  · rename_i hquote
    cases h
    exact .script hquote
  dsimp only at h
  split at h
  · rename_i hshort
    cases h
    refine .insufficientStock ?_ hshort
    rw [Word.le_def, Word.toNat_min] at hwanted ⊢
    rw [Word.toNat_min]
    exact Nat.le_trans (Nat.min_le_left _ _) hwanted
  split at h
  · rename_i hprice
    cases h
    exact .maximumPrice hprice
  split at h
  · rename_i hcost
    cases h
    exact .costOverflow hcost
  · cases h

theorem assess_ne_token {s : Sale} {call : Call} {order : Order} {e : SaleError} {records : List Record}
    (h : s.assess call order = (.error e, records)) (cause : TokenError) : e ≠ .token cause := by
  rintro rfl
  cases declines_of_assess h

theorem units_le_remaining {s : Sale} {call : Call} {order : Order} {p : Purchase} {records : List Record}
    (h : s.assess call order = (.ok p, records)) : p.units.toNat ≤ s.remaining.toNat := by
  obtain ⟨-, -, q, -, hunits, -⟩ := assess_eq_ok h
  rw [hunits, Word.toNat_min, Word.toNat_min]
  exact Nat.le_trans (Nat.min_le_left _ _) (Nat.min_le_right _ _)

def sold (s : Sale) (buyer : Address) (p : Purchase) : Sale :=
  { s with
    proceeds := s.proceeds.satAdd p.cost
    registry := s.registry.addBatch buyer p.units.lowUInt64 }

/-- What the buyer gets back of the native currency attached. -/
def refund (s : Sale) (call : Call) (cost : Word) : Word :=
  if s.config.currency = .native then call.value.satSub cost else 0

def receipt (s : Sale) (call : Call) (p : Purchase) : MintReceipt :=
  ⟨Registry.firstId + s.registry.totalMinted, p.units.lowUInt64, p.unitPrice, p.cost, s.refund call p.cost⟩

def soldReport (s : Sale) (buyer : Address) (p : Purchase) : Record :=
  let first := Registry.firstId + s.registry.totalMinted
  ⟨.info, s!"minted: buyer={buyer} units={p.units} unit_price={p.unitPrice} " ++
    s!"cost={p.cost} first_id={first.toNat}"⟩

end Sale

namespace Market

variable {α β : Type}

def logged (m : Market) (records : List Record) : Market := { m with log := m.log ++ records }

@[simp] theorem logged_nil (m : Market) : m.logged [] = m := by
  rw [logged, List.append_nil]

/-- The part of a purchase that changes something. -/
def settle (call : Call) (p : Purchase) : Trade MintReceipt := do
  let refund ← collect call p.cost
  changeSale fun s => { s with proceeds := s.proceeds.satAdd p.cost }
  let ids ← onRegistry (Registry.mint call.caller p.units.lowUInt64)
  report (s!"minted: buyer={call.caller} units={p.units} unit_price={p.unitPrice} " ++
    s!"cost={p.cost} first_id={ids.first.toNat}")
  pure ⟨ids.first, p.units.lowUInt64, p.unitPrice, p.cost, refund⟩

theorem perform_requireStock (minimum available : Word) (m : Market) :
    (requireStock minimum available).perform m =
      if available < minimum then (.error (.insufficientStock minimum available), m)
      else (.ok (), m) := by
  rw [requireStock]
  split
  · rfl
  · rfl

theorem perform_quote {account : Address} {units : Word} {time : UInt64} {m : Market}
    {result : Except Fault Quote} {records : List Record}
    (h : m.sale.quote account units time = (result, records)) :
    (quote account units time).perform m = (result.mapError SaleError.script, m.logged records) := by
  rw [quote, Action.perform_ofFunction, h]
  rfl

/-- A purchase is an assessment and then, if nothing speaks against it, a settlement. -/
theorem perform_mint (call : Call) (order : Order) (m : Market) :
    (mint call order).perform m =
      match m.sale.assess call order with
      | (.error e, records) => (.error e, m.logged records)
      | (.ok p, records) => (settle call p).perform (m.logged records) := by
  rw [mint, Sale.assess]
  by_cases hmin : order.minimum = 0
  · simp only [if_pos hmin, logged_nil]
    rfl
  simp only [if_neg hmin]
  by_cases hover : order.desired < order.minimum
  · simp only [if_pos hover, logged_nil]
    rfl
  simp only [if_neg hover]
  rw [Action.perform_bind_of_ok (Action.perform_get m)]
  generalize min order.desired (.ofUInt64 m.sale.remaining) = wanted
  have hstock := perform_requireStock order.minimum wanted m
  by_cases hwanted : wanted < order.minimum
  · rw [if_pos hwanted] at hstock
    simp only [if_pos hwanted, logged_nil, Action.perform_bind_of_error hstock]
  rw [if_neg hwanted] at hstock
  simp only [if_neg hwanted, Action.perform_bind_of_ok hstock]
  rcases hquoted : m.sale.quote call.caller wanted call.time with ⟨fault | q, records⟩
  · have hquote : (quote call.caller wanted call.time).perform m =
        (.error (.script fault), m.logged records) := perform_quote hquoted
    rw [Action.perform_bind_of_error hquote]
  have hquote : (quote call.caller wanted call.time).perform m = (.ok q, m.logged records) :=
    perform_quote hquoted
  rw [Action.perform_bind_of_ok hquote]
  dsimp only
  generalize min wanted q.maxUnits = units
  have hstock' := perform_requireStock order.minimum units (m.logged records)
  by_cases hunits : units < order.minimum
  · rw [if_pos hunits] at hstock'
    simp only [if_pos hunits, Action.perform_bind_of_error hstock']
  rw [if_neg hunits] at hstock'
  simp only [if_neg hunits, Action.perform_bind_of_ok hstock']
  by_cases hprice : order.maximumPrice < q.unitPrice
  · simp only [if_pos hprice]
    rfl
  simp only [if_neg hprice]
  cases units.mul? q.unitPrice with
  | none => rfl
  | some cost => rfl

/-! ## Settlement -/

theorem perform_onLedger (act : Action Ledger PaymentError α) (m : Market) :
    (onLedger act).perform m =
      ((act.perform m.ledger).1.mapError SaleError.payment,
        { m with ledger := (act.perform m.ledger).2 }) := by
  simp only [onLedger, Action.within, Action.mapError, Action.perform_ofFunction]
  rcases act.perform m.ledger with ⟨e | a, l⟩
  · rfl
  · rfl

theorem perform_onRegistry (act : Action Registry TokenError α) (m : Market) :
    (onRegistry act).perform m =
      ((act.perform m.sale.registry).1.mapError SaleError.token,
        { m with sale := { m.sale with registry := (act.perform m.sale.registry).2 } }) := by
  simp only [onRegistry, Action.within, Action.mapError, Action.perform_ofFunction]
  rcases act.perform m.sale.registry with ⟨e | a, r⟩
  · rfl
  · rfl

/-- What the buyer is charged. -/
def charge (config : Config) (caller : Address) (cost : Word) : Action Ledger PaymentError Unit :=
  match config.currency with
  | .token token => Ledger.transferFrom token config.address caller config.address cost
  | .native => Ledger.transfer .native caller config.address cost

theorem charge_error {config : Config} {caller : Address} {cost : Word} {l l' : Ledger} {e : PaymentError}
    (h : (charge config caller cost).perform l = (.error e, l')) : l' = l := by
  rw [charge] at h
  split at h
  · rw [Ledger.perform_transferFrom] at h
    split at h
    · split at h
      · cases h
      · cases h; rfl
    · cases h; rfl
  · rw [Ledger.perform_transfer] at h
    split at h
    · cases h
    · cases h; rfl

/-- A charge that goes through moves the cost, and a charge in tokens uses up as much of the allowance. -/
theorem charge_cases {config : Config} {caller : Address} {cost : Word} {l l' : Ledger}
    (h : (charge config caller cost).perform l = (.ok (), l')) :
    cost ≤ l.balance config.currency caller ∧
      ((config.currency = .native ∧ l' = l.moved .native caller config.address cost) ∨
        ∃ token, config.currency = .token token ∧ cost ≤ l.allowance token caller config.address ∧
          l' = (l.moved (.token token) caller config.address cost).approve token caller config.address
            ((l.allowance token caller config.address).satSub cost)) := by
  rw [charge] at h
  split at h
  · rename_i token hcurrency
    rw [Ledger.perform_transferFrom] at h
    split at h
    · rename_i hallowed
      split at h
      · rename_i hle
        cases h
        rw [hcurrency]
        exact ⟨hle, Or.inr ⟨token, rfl, hallowed, rfl⟩⟩
      · cases h
    · cases h
  · rename_i hcurrency
    rw [Ledger.perform_transfer] at h
    split at h
    · rename_i hle
      cases h
      rw [hcurrency]
      exact ⟨hle, Or.inl ⟨rfl, rfl⟩⟩
    · cases h

theorem balance_of_charge {config : Config} {caller : Address} {cost : Word} {l l' : Ledger}
    (h : (charge config caller cost).perform l = (.ok (), l')) (currency : Currency) (account : Address) :
    l'.balance currency account =
      (l.moved config.currency caller config.address cost).balance currency account := by
  obtain ⟨-, ⟨hcurrency, rfl⟩ | ⟨token, hcurrency, -, rfl⟩⟩ := charge_cases h
  · rw [hcurrency]
  · rw [hcurrency, Ledger.balance_approve]

theorem perform_collect (call : Call) (cost : Word) (m : Market) :
    (collect call cost).perform m =
      if m.sale.config.currency = .native ∧ call.value < cost then
        (.error (.insufficientFund call.value cost), m)
      else
        match (charge m.sale.config call.caller cost).perform m.ledger with
        | (.error e, l) => (.error (.payment e), { m with ledger := l })
        | (.ok _, l) => (.ok (m.sale.refund call cost), { m with ledger := l }) := by
  rw [collect, Action.perform_bind_of_ok (Action.perform_get m), charge, Sale.refund]
  cases hcurrency : m.sale.config.currency with
  | token token =>
    simp only [hcurrency, reduceCtorEq, false_and, if_false]
    rw [Action.perform_bind, perform_onLedger]
    rcases (Ledger.transferFrom token m.sale.config.address call.caller m.sale.config.address
      cost).perform m.ledger with ⟨e | a, l⟩
    · rfl
    · rfl
  | native =>
    simp only [hcurrency, true_and, if_true]
    by_cases hvalue : call.value < cost
    · simp only [if_pos hvalue]
      rfl
    simp only [if_neg hvalue]
    rw [Action.perform_bind, perform_onLedger]
    rcases (Ledger.transfer .native call.caller m.sale.config.address cost).perform m.ledger with
      ⟨e | a, l⟩
    · rfl
    · rfl

theorem collect_cases (call : Call) (cost : Word) (m : Market) :
    (∃ e : SaleError, e.IsPayment ∧ (collect call cost).perform m = (.error e, m)) ∨
      ∃ l, (charge m.sale.config call.caller cost).perform m.ledger = (.ok (), l) ∧
        (collect call cost).perform m = (.ok (m.sale.refund call cost), { m with ledger := l }) := by
  rw [perform_collect]
  split
  · exact Or.inl ⟨.insufficientFund call.value cost, Or.inl ⟨_, _, rfl⟩, rfl⟩
  rcases hcharge : (charge m.sale.config call.caller cost).perform m.ledger with ⟨e | a, l⟩
  · obtain rfl := charge_error hcharge
    exact Or.inl ⟨.payment e, Or.inr ⟨e, rfl⟩, rfl⟩
  · exact Or.inr ⟨l, rfl, rfl⟩

/-- As long as there are ids, nothing is refused after the payment. -/
theorem perform_settle {call : Call} {p : Purchase} {m : Market} {l : Ledger}
    (hids : (Registry.firstId + m.sale.registry.totalMinted).toNat + p.units.lowUInt64.toNat <
      UInt64.size)
    (hcollect : (collect call p.cost).perform m = (.ok (m.sale.refund call p.cost), { m with ledger := l })) :
    (settle call p).perform m = (.ok (m.sale.receipt call p),
      ⟨m.sale.sold call.caller p, l, m.log ++ [m.sale.soldReport call.caller p]⟩) := by
  rw [settle, Action.perform_bind_of_ok hcollect]
  have hmint := Registry.perform_mint call.caller p.units.lowUInt64 m.sale.registry
  simp only [if_pos hids] at hmint
  rw [changeSale, Action.perform_bind_of_ok (Action.perform_modify _ _), Action.perform_bind,
    perform_onRegistry]
  simp only [hmint]
  rfl

/-- As long as there are ids, a settlement is refused only with the payment. -/
theorem settle_cases (call : Call) (p : Purchase) (m : Market)
    (hids : (Registry.firstId + m.sale.registry.totalMinted).toNat + p.units.lowUInt64.toNat <
      UInt64.size) :
    (∃ e : SaleError, e.IsPayment ∧ (settle call p).perform m = (.error e, m)) ∨
      ∃ l, (charge m.sale.config call.caller p.cost).perform m.ledger = (.ok (), l) ∧
        (settle call p).perform m = (.ok (m.sale.receipt call p),
          ⟨m.sale.sold call.caller p, l, m.log ++ [m.sale.soldReport call.caller p]⟩) := by
  rcases collect_cases call p.cost m with ⟨e, hpayment, hcollect⟩ | ⟨l, hcharge, hcollect⟩
  · exact Or.inl ⟨e, hpayment, Action.perform_bind_of_error hcollect⟩
  · exact Or.inr ⟨l, hcharge, perform_settle hids hcollect⟩

end Market

end TokenSale
