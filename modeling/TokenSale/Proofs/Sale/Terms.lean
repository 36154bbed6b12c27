import TokenSale.Proofs.Sale.Bystanders
import TokenSale.Proofs.Sale.Compiled
import TokenSale.Proofs.Sale.Supply

/-!
# The terms of a purchase

What an order must meet is a list of conditions, each with the refusal that there is for want of it: `Sale.terms`. A
purchase goes through exactly if all of them are met, and otherwise it is refused for the first that is not
(`Market.firstRefusal?_terms`). What it then brings is `Sale.Delivered`. `Sale.Reachable.mint_spec` says both of every
sale that calls lead to; there the registry, which comes last, has nothing to refuse.
-/

namespace TokenSale

/-! ## Words -/

namespace Word

variable {a b w : Word}

theorem eq_zero_iff : w = 0 ↔ ¬ 1 ≤ w := by
  rw [le_def, toNat_one, Nat.one_le_iff_ne_zero, not_not]
  exact ⟨congrArg toNat, fun h => Word.ext h⟩

theorem lt_iff : a < b ↔ ¬ b ≤ a := Nat.not_le.symm

theorem eq_satMul_of_mul? (h : a.mul? b = some w) : w = a.satMul b := by
  have hlt := w.toNat_lt
  rw [ofNat?_eq_some_iff.mp h] at hlt
  rw [mul?_of_lt hlt] at h
  exact (Option.some.inj h).symm

end Word

/-! ## Conditions -/

/-- One thing that a purchase depends on, and how it is refused for want of it. -/
structure Condition where
  met : Bool
  refusal : SaleError

/-- The refusal of the first condition that is not met. -/
def firstRefusal? : List Condition → Option SaleError
  | [] => none
  | c :: rest => if c.met then firstRefusal? rest else some c.refusal

section Cons

variable {p : Prop} [Decidable p] (refusal : SaleError) (rest : List Condition)

theorem firstRefusal?_cons_of_pos (h : p) : firstRefusal? (⟨p, refusal⟩ :: rest) = firstRefusal? rest :=
  if_pos (decide_eq_true h)

theorem firstRefusal?_cons_of_neg (h : ¬ p) : firstRefusal? (⟨p, refusal⟩ :: rest) = some refusal :=
  if_neg (Bool.eq_false_iff.mp (decide_eq_false h))

end Cons

theorem firstRefusal?_append (cs ds : List Condition) :
    firstRefusal? (cs ++ ds) = (firstRefusal? cs).or (firstRefusal? ds) := by
  induction cs with
  | nil => rfl
  | cons c rest ih =>
    rw [List.cons_append, firstRefusal?, firstRefusal?, ih]
    split
    · rfl
    · rfl

theorem firstRefusal?_eq_none_iff {cs : List Condition} :
    firstRefusal? cs = none ↔ ∀ c ∈ cs, c.met = true := by
  induction cs with
  | nil => exact iff_of_true rfl nofun
  | cons c rest ih =>
    rw [firstRefusal?, List.forall_mem_cons, ← ih]
    split
    · rename_i hmet
      exact (and_iff_right hmet).symm
    · rename_i hunmet
      exact iff_of_false nofun fun h => hunmet h.1

/-- The refusal that a result is, if it is one. -/
def refusal? {α : Type} : Except SaleError α → Option SaleError
  | .ok _ => none
  | .error e => some e

theorem refusal?_eq_some_iff {α : Type} {result : Except SaleError α} {e : SaleError} :
    refusal? result = some e ↔ result = .error e := by
  cases result with
  | ok a => exact iff_of_false nofun nofun
  | error e' => simp only [refusal?, Option.some.injEq, Except.error.injEq]

theorem refusal?_eq_none_iff {α : Type} {result : Except SaleError α} :
    refusal? result = none ↔ ∃ a, result = .ok a := by
  cases result with
  | ok a => exact iff_of_true rfl ⟨a, rfl⟩
  | error e => exact iff_of_false nofun nofun

/-! ## The conditions of a purchase -/

namespace Sale

/-- What an order must meet before the script is asked. -/
def openingTerms (s : Sale) (order : Order) : List Condition :=
  [⟨1 ≤ order.minimum, .zeroMinimum⟩,
    ⟨order.minimum ≤ order.desired, .minimumOverDesired order.minimum order.desired⟩,
    ⟨order.minimum ≤ s.wanted order, .insufficientStock order.minimum (s.wanted order)⟩]

/-- What an order must meet when it comes to so many units at such a price. -/
def offerTerms (order : Order) (units unitPrice : Word) : List Condition :=
  [⟨order.minimum ≤ units, .insufficientStock order.minimum units⟩,
    ⟨unitPrice ≤ order.maximumPrice, .maximumPrice unitPrice order.maximumPrice⟩,
    ⟨units.toNat * unitPrice.toNat < Word.size, .costOverflow units unitPrice⟩]

/-- What the buyer must have, and in tokens also allow. -/
def paymentTerms (s : Sale) (l : Ledger) (call : Call) (cost : Word) : List Condition :=
  match s.config.currency with
  | .token token =>
    let allowance := l.allowance token call.caller s.config.address
    let balance := l.balance (.token token) call.caller
    [⟨cost ≤ allowance, .payment (.insufficientAllowance call.caller s.config.address allowance cost)⟩,
      ⟨cost ≤ balance, .payment (.insufficientBalance call.caller balance cost)⟩]
  | .native =>
    let balance := l.balance .native call.caller
    [⟨cost ≤ call.value, .insufficientFund call.value cost⟩,
      ⟨cost ≤ balance, .payment (.insufficientBalance call.caller balance cost)⟩]

/-- All that an order must meet, in the order in which it is refused. The script is asked about the units wanted, and
what comes after depends on what it says. A cost that has to be paid is exact, since it has been found to be a word. -/
def terms (s : Sale) (l : Ledger) (call : Call) (order : Order) : List Condition :=
  s.openingTerms order ++
    match (s.quote call.caller (s.wanted order) call.time).1 with
    | .error fault => [⟨false, .script fault⟩]
    | .ok q =>
      let units := min (s.wanted order) q.maxUnits
      offerTerms order units q.unitPrice ++ s.paymentTerms l call (units.satMul q.unitPrice)

end Sale

/-! ## The conditions decide -/

/-- A check refuses as a condition does that is put in front of what is checked after it. -/
theorem refusal?_check {α β : Type} {p failed : Prop} [Decidable p] [Decidable failed] {e : SaleError}
    {x : Except SaleError α × β} {b : β} {rest : List Condition} (hfailed : failed ↔ ¬ p)
    (hx : refusal? x.1 = firstRefusal? rest) :
    refusal? (if failed then (.error e, b) else x).1 = firstRefusal? (⟨p, e⟩ :: rest) := by
  by_cases hp : p
  · rw [if_neg fun h => hfailed.mp h hp, firstRefusal?_cons_of_pos _ _ hp, hx]
  · rw [if_pos (hfailed.mpr hp), firstRefusal?_cons_of_neg _ _ hp]
    rfl

namespace Sale

variable {s : Sale} {call : Call} {order : Order}

/-- What is asked of an order before any money moves. -/
theorem refusal?_assess (s : Sale) (call : Call) (order : Order) :
    refusal? (s.assess call order).1 =
      firstRefusal? (s.openingTerms order ++
        match (s.quote call.caller (s.wanted order) call.time).1 with
        | .error fault => [⟨false, .script fault⟩]
        | .ok q => offerTerms order (min (s.wanted order) q.maxUnits) q.unitPrice) := by
  rw [assess, ← wanted]
  refine refusal?_check Word.eq_zero_iff ?_
  refine refusal?_check Word.lt_iff ?_
  refine refusal?_check Word.lt_iff ?_
  rcases s.quote call.caller (s.wanted order) call.time with ⟨fault | q, records⟩
  · rfl
  refine refusal?_check Word.lt_iff ?_
  refine refusal?_check Word.lt_iff ?_
  generalize min (s.wanted order) q.maxUnits = units
  by_cases hcost : units.toNat * q.unitPrice.toNat < Word.size
  · simp only [Word.mul?_of_lt hcost, firstRefusal?_cons_of_pos _ _ hcost]
    rfl
  · have hnone : units.mul? q.unitPrice = none := Word.ofNat?_eq_none_iff.mpr (Nat.not_lt.mp hcost)
    simp only [hnone, firstRefusal?_cons_of_neg _ _ hcost]
    rfl

end Sale

namespace Market

variable {m : Market} {call : Call} {order : Order}

/-- What is asked of the buyer. -/
theorem refusal?_collect (call : Call) (cost : Word) (m : Market) :
    refusal? ((collect call cost).perform m).1 = firstRefusal? (m.sale.paymentTerms m.ledger call cost) := by
  rw [perform_collect, charge, Sale.paymentTerms]
  cases m.sale.config.currency with
  | token token =>
    rw [Ledger.perform_transferFrom]
    simp only [reduceCtorEq, false_and, if_false]
    by_cases hallowed : cost ≤ m.ledger.allowance token call.caller m.sale.config.address
    · rw [if_pos hallowed, firstRefusal?_cons_of_pos _ _ hallowed]
      by_cases hbalance : cost ≤ m.ledger.balance (.token token) call.caller
      · rw [if_pos hbalance, firstRefusal?_cons_of_pos _ _ hbalance]
        rfl
      · rw [if_neg hbalance, firstRefusal?_cons_of_neg _ _ hbalance]
        rfl
    · rw [if_neg hallowed, firstRefusal?_cons_of_neg _ _ hallowed]
      rfl
  | native =>
    rw [Ledger.perform_transfer]
    simp only [true_and]
    refine refusal?_check Word.lt_iff ?_
    by_cases hbalance : cost ≤ m.ledger.balance .native call.caller
    · rw [if_pos hbalance, firstRefusal?_cons_of_pos _ _ hbalance]
      rfl
    · rw [if_neg hbalance, firstRefusal?_cons_of_neg _ _ hbalance]
      rfl

/-- As long as there are ids, a settlement is refused as the payment is. -/
theorem refusal?_settle {p : Purchase}
    (hids : (Registry.firstId + m.sale.registry.totalMinted).toNat + p.units.lowUInt64.toNat <
      UInt64.size) :
    refusal? ((settle call p).perform m).1 = firstRefusal? (m.sale.paymentTerms m.ledger call p.cost) := by
  rw [← refusal?_collect]
  rcases collect_cases call p.cost m with ⟨e, -, hcollect⟩ | ⟨l, -, hcollect⟩
  · have hsettle : (settle call p).perform m = (.error e, m) := Action.perform_bind_of_error hcollect
    rw [hcollect, hsettle]
    rfl
  · rw [hcollect, perform_settle hids hcollect]
    rfl

/-- **The conditions decide.** A sale in stock refuses a purchase for the first condition that is not met. -/
theorem firstRefusal?_terms (hm : m.sale.InStock) (call : Call) (order : Order) :
    firstRefusal? (m.sale.terms m.ledger call order) = refusal? ((mint call order).perform m).1 := by
  have hopening := m.sale.refusal?_assess call order
  rw [perform_mint, Sale.terms]
  rcases hassess : m.sale.assess call order with ⟨e | p, records⟩
  · rw [hassess] at hopening
    cases hquote : (m.sale.quote call.caller (m.sale.wanted order) call.time).1 with
    | error fault =>
      rw [hquote] at hopening
      exact hopening.symm
    | ok q =>
      rw [hquote] at hopening
      dsimp only at hopening ⊢
      rw [← List.append_assoc, firstRefusal?_append, ← hopening]
      rfl
  · obtain ⟨-, -, q, hquote, hunits, -, -, -, hcost⟩ := Sale.assess_eq_ok hassess
    rw [← Sale.wanted] at hquote hunits
    rw [hassess, hquote] at hopening
    rw [hquote]
    dsimp only at hopening ⊢
    rw [← hunits] at hopening ⊢
    rw [← Word.eq_satMul_of_mul? hcost, ← List.append_assoc, firstRefusal?_append, ← hopening]
    exact (refusal?_settle (m := m.logged records) (hm.ids_suffice (Sale.units_le_remaining hassess))).symm

end Market

/-! ## What a purchase brings -/

namespace Sale

/-- What a purchase of `n` units at a price brings: the receipt, and what the sale `t` that is left says. -/
structure Delivered (s t : Sale) (call : Call) (n price : Word) (receipt : MintReceipt) : Prop where
  firstId : receipt.firstId.toNat = (s.slot .totalMinted).toNat + 1
  units : receipt.units.toNat = n.toNat
  unitPrice : receipt.unitPrice = price
  totalCost : receipt.totalCost.toNat = n.toNat * price.toNat
  refund_native : s.config.currency = .native →
    receipt.refund.toNat + receipt.totalCost.toNat = call.value.toNat
  refund_token : ∀ token, s.config.currency = .token token → receipt.refund = 0
  owner : ∀ id : UInt64, id.toNat ∈ receipt.ids → t.registry.owner id = .ok call.caller
  owner_other : ∀ id : UInt64, id.toNat ∉ receipt.ids → t.registry.owner id = s.registry.owner id
  numberMinted : (t.numberMinted call.caller).toNat = (s.numberMinted call.caller).toNat + n.toNat

variable {s : Sale} {call : Call} {order : Order}

theorem mem_ids_receipt_iff {a : Roll} (ha : Registry.Represents a s.registry) (call : Call) (p : Purchase)
    (id : UInt64) :
    id.toNat ∈ (s.receipt call p).ids ↔
      a.issued < id.toNat ∧ id.toNat ≤ a.issued + p.units.lowUInt64.toNat := by
  rw [MintReceipt.ids, Finset.mem_Ico]
  dsimp only [receipt]
  rw [ha.toNat_firstId_add]
  omega

theorem delivered_sold {a : Roll} (hs : s.InStock) (ha : Registry.Represents a s.registry) {p : Purchase}
    (hunits : p.units.toNat ≤ s.remaining.toNat) (hcost : p.units.mul? p.unitPrice = some p.cost)
    (hvalue : s.config.currency = .native → p.cost ≤ call.value) :
    s.Delivered (s.sold call.caller p) call p.units p.unitPrice (s.receipt call p) := by
  have hlow := (hs.toNat_units hunits).1
  have hids := hs.ids_suffice hunits
  rw [ha.toNat_firstId_add] at hids
  have hmem := mem_ids_receipt_iff ha call p
  -- who owns what after the new batch is known from the roll that the registry stands for
  have howner := ha.owner_addBatch_eq call.caller hids
  exact {
    firstId := hs.toNat_firstId_add.trans (Nat.add_comm _ _)
    units := hlow
    unitPrice := rfl
    totalCost := Word.ofNat?_eq_some_iff.mp hcost
    refund_native := by
      intro hnative
      show (s.refund call p.cost).toNat + p.cost.toNat = call.value.toNat
      rw [refund, if_pos hnative, Word.toNat_satSub]
      exact Nat.sub_add_cancel (hvalue hnative)
    refund_token := by
      intro token htoken
      show s.refund call p.cost = 0
      have hother : s.config.currency ≠ .native := htoken ▸ Currency.noConfusion
      exact if_neg hother
    owner := fun id hid => (howner id).trans (if_pos ((hmem id).mp hid))
    owner_other := fun id hid => (howner id).trans (if_neg fun h => hid ((hmem id).mpr h))
    numberMinted := by
      have hnew := (Registry.represents_addBatch ha call.caller hids).numberMinted call.caller
      have hissued : (a.issue call.caller p.units.lowUInt64.toNat).received call.caller =
          a.received call.caller + p.units.lowUInt64.toNat := if_pos rfl
      rw [hissued, ← ha.numberMinted, hlow] at hnew
      exact hnew }

/-- The currency attached covers the cost if all terms are met. -/
theorem le_value_of_terms {l : Ledger} {q : Quote} (hmet : ∀ c ∈ s.terms l call order, c.met = true)
    (hquote : (s.quote call.caller (s.wanted order) call.time).1 = .ok q)
    (hnative : s.config.currency = .native) :
    (min (s.wanted order) q.maxUnits).satMul q.unitPrice ≤ call.value := by
  rw [terms, hquote, List.forall_mem_append] at hmet
  have hpayment := (List.forall_mem_append.mp hmet.2).2
  rw [paymentTerms, hnative] at hpayment
  exact of_decide_eq_true (hpayment _ List.mem_cons_self)

/-- **The terms of a purchase.** On every sale that calls lead to, and against any ledger, a purchase goes through
exactly if all of its terms are met, and it is refused exactly for the first that is not. The script is asked about the
units wanted, and its answer is what one run of it leaves on the sale as it stands. What goes through delivers as many
units as are wanted and the script allows, at the price that the script asks. -/
theorem Reachable.mint_spec {s : Sale} (hs : s.Reachable) (l : Ledger) (log : List Record) (call : Call)
    (order : Order) :
    let offer := (s.quote call.caller (s.wanted order) call.time).1
    let answer := (Market.mint call order).perform ⟨s, l, log⟩
    offer.map Quote.values =
        ((Machine.evaluate s.pricing.script s.pricing.maxSteps (s.scene call.caller (s.wanted order) call.time)
          Script.entry Pricing.outputWidth).perform (.idle ())).1 ∧
      ((∃ receipt, answer.1 = .ok receipt) ↔ ∀ c ∈ s.terms l call order, c.met = true) ∧
      (∀ e, answer.1 = .error e ↔ firstRefusal? (s.terms l call order) = some e) ∧
      ∀ receipt, answer.1 = .ok receipt →
        ∃ q, offer = .ok q ∧
          s.Delivered answer.2.sale call (min (s.wanted order) q.maxUnits) q.unitPrice receipt := by
  obtain ⟨a, ha⟩ := hs.represents
  have hterms := Market.firstRefusal?_terms (m := ⟨s, l, log⟩) hs.inStock call order
  have hmint := Market.mint_cases (m := ⟨s, l, log⟩) hs.inStock call order
  dsimp only
  generalize (Market.mint call order).perform ⟨s, l, log⟩ = answer at hterms hmint ⊢
  refine ⟨?_, ?_, fun e => ?_, fun receipt h => ?_⟩
  · exact s.pricing.map_values_evaluate_scene (s.surroundings call.caller (s.wanted order) call.time) []
  · rw [← refusal?_eq_none_iff, ← hterms, firstRefusal?_eq_none_iff]
  · rw [← refusal?_eq_some_iff, ← hterms]
  · rw [h] at hterms
    rcases hmint with ⟨e, records, -, rfl⟩ | ⟨p, l', records, hassess, -, rfl⟩
    · cases h
    · cases h
      obtain ⟨-, -, q, hquote, hunits, -, hprice, -, hcost⟩ := assess_eq_ok hassess
      have hoffer : (s.quote call.caller (s.wanted order) call.time).1 = .ok q := congrArg Prod.fst hquote
      have hvalue := le_value_of_terms (firstRefusal?_eq_none_iff.mp hterms) hoffer
      rw [← wanted] at hunits
      rw [← hunits, ← Word.eq_satMul_of_mul? hcost] at hvalue
      rw [← hprice] at hcost
      refine ⟨q, hoffer, ?_⟩
      rw [← hunits, ← hprice]
      exact delivered_sold hs.inStock ha (units_le_remaining hassess) hcost hvalue

/-- An order of one token at least, and two at most. -/
def pairOrder (maximumPrice : Word) : Order := ⟨1, .ofUInt64 2, maximumPrice⟩

/-- What comes of it for a token, where the buyer has ten of them and lets the sale take eight. -/
def pairAnswer (maximumPrice : Word) : Except SaleError MintReceipt × Market :=
  (Market.mint ⟨.truncate 2, 0, 0⟩ (pairOrder maximumPrice)).perform ⟨flatTokenSale, buyerLedger, []⟩

/-- At a price of three the buyer gets two if three are paid at most, and none if two are. -/
theorem mint_spec_pairAnswer :
    flatTokenSale.Reachable ∧
      (∃ receipt, (pairAnswer (.ofUInt64 3)).1 = .ok receipt ∧ receipt.units.toNat = 2 ∧
        receipt.totalCost.toNat = 6 ∧
        (pairAnswer (.ofUInt64 3)).2.sale.registry.owner 2 = .ok (.truncate 2)) ∧
      (pairAnswer (.ofUInt64 2)).1 = .error (.maximumPrice (.ofUInt64 3) (.ofUInt64 2)) := by
  have hs : flatTokenSale.Reachable :=
    .deployed (show (deploy flatTokenSale.config flatPricing .none).1 = .ok flatTokenSale from rfl)
  have hspec := fun maximumPrice => hs.mint_spec buyerLedger [] ⟨.truncate 2, 0, 0⟩ (pairOrder maximumPrice)
  refine ⟨hs, ?_, ?_⟩
  · obtain ⟨-, haccepted, -, hdelivered⟩ := hspec (.ofUInt64 3)
    obtain ⟨receipt, hreceipt⟩ := haccepted.mpr (firstRefusal?_eq_none_iff.mp (by rfl))
    obtain ⟨q, hq, hbrings⟩ := hdelivered receipt hreceipt
    obtain rfl : ⟨.ofUInt64 10, .ofUInt64 3⟩ = q := Except.ok.inj (Eq.trans (by rfl) hq)
    have hunits : receipt.units.toNat = 2 := hbrings.units
    have hfirst : receipt.firstId.toNat = 1 := hbrings.firstId
    have hmem : (2 : UInt64).toNat ∈ receipt.ids := by
      rw [MintReceipt.ids, hfirst, hunits]
      decide
    exact ⟨receipt, hreceipt, hunits, hbrings.totalCost, hbrings.owner 2 hmem⟩
  · exact ((hspec (.ofUInt64 2)).2.2.1 _).mpr (by rfl)

end Sale

end TokenSale
