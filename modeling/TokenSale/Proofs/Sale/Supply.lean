import Mathlib.Algebra.GroupWithZero.Nat
import TokenSale.Proofs.Registry.Refinement
import TokenSale.Proofs.Sale.History

/-!
# The supply of a sale

A sale counts what it has minted and burned, and its history says what was sold and burned. `Tallies` says that the
counters are those of the history, and that they stay within the supply limit. Since the registry stands for a roll
(`Registry.Represents`), it is enough to follow what the calls do to the roll: `Booked` is what is kept from call to
call. A sale with nothing left declines every purchase, and no burned token brings anything back.
-/

namespace TokenSale

/-! ## What a history says -/

namespace Entry

/-- The buyer and the receipt of a purchase. -/
def purchase? (e : Entry) : Option (Address × MintReceipt) :=
  match e.request, e.reply with
  | .mint call _, .ok (.minted receipt) => some (call.caller, receipt)
  | _, _ => none

def burned (e : Entry) : Bool :=
  match e.request, e.reply with
  | .burn _ _, .ok _ => true
  | _, _ => false

theorem purchase?_refused (r : Request) (e : SaleError) : purchase? ⟨r, .error e⟩ = none := by
  cases r <;> rfl

theorem purchase?_eq_some {e : Entry} {buyer : Address} {receipt : MintReceipt}
    (h : e.purchase? = some (buyer, receipt)) :
    ∃ call order, e.request = .mint call order ∧ e.reply = .ok (.minted receipt) ∧ call.caller = buyer := by
  obtain ⟨request, reply⟩ := e
  unfold purchase? at h
  dsimp only at h
  split at h
  · cases h
    exact ⟨_, _, rfl, rfl, rfl⟩
  · cases h

theorem burned_refused (r : Request) (e : SaleError) : burned ⟨r, .error e⟩ = false := by
  cases r <;> rfl

/-- Not a purchase that goes through. One that does not is refused for what the buyer asks or for want of stock. -/
def OutOfStock (e : Entry) : Prop :=
  ∀ call order, e.request = .mint call order →
    ∃ refusal, e.reply = .error refusal ∧
      refusal.reason ∈ ["0_MINIMUM", "MINIMUM_OVER_DESIRED", "INSUFFICIENT_STOCK"]

end Entry

/-- The purchases of a history, the earliest first. -/
def purchases (entries : List Entry) : List (Address × MintReceipt) :=
  entries.filterMap Entry.purchase?

/-- The tokens burned in a history. -/
def burns (entries : List Entry) : Nat := entries.countP Entry.burned

def units (bought : List (Address × MintReceipt)) : Nat :=
  (bought.map fun p => p.2.units.toNat).sum

/-- The units that an account bought. -/
def unitsOf (account : Address) (bought : List (Address × MintReceipt)) : Nat :=
  units (bought.filter fun p => p.1 = account)

/-- The ids of the tokens on a receipt. -/
def MintReceipt.ids (receipt : MintReceipt) : Finset Nat :=
  Finset.Ico receipt.firstId.toNat (receipt.firstId.toNat + receipt.units.toNat)

/-- Receipts whose ids start at `first` and follow on each other. -/
def Consecutive (first : Nat) : List (Address × MintReceipt) → Prop
  | [] => True
  | p :: rest => p.2.firstId.toNat = first ∧ Consecutive (first + p.2.units.toNat) rest

section Lists

variable (past : List Entry) (bought : List (Address × MintReceipt))

theorem purchases_snoc (e : Entry) :
    purchases (past ++ [e]) = purchases past ++ e.purchase?.toList := by
  rw [purchases, List.filterMap_append, List.filterMap_cons, List.filterMap_nil]
  cases e.purchase? <;> rfl

theorem burns_snoc (e : Entry) : burns (past ++ [e]) = burns past + if e.burned then 1 else 0 := by
  rw [burns, List.countP_append, List.countP_singleton]
  rfl

theorem units_snoc (p : Address × MintReceipt) :
    units (bought ++ [p]) = units bought + p.2.units.toNat := by
  rw [units, List.map_append, List.sum_append]
  rfl

theorem unitsOf_snoc (account : Address) (p : Address × MintReceipt) :
    unitsOf account (bought ++ [p]) =
      unitsOf account bought + if p.1 = account then p.2.units.toNat else 0 := by
  rw [unitsOf, List.filter_append]
  by_cases hp : p.1 = account
  · rw [List.filter_cons_of_pos (by simpa using hp), List.filter_nil, units_snoc, if_pos hp]
    rfl
  · rw [List.filter_cons_of_neg (by simpa using hp), List.filter_nil, List.append_nil, if_neg hp]
    rfl

end Lists

theorem consecutive_snoc {first : Nat} {bought : List (Address × MintReceipt)}
    (h : Consecutive first bought) {p : Address × MintReceipt}
    (hp : p.2.firstId.toNat = first + units bought) : Consecutive first (bought ++ [p]) := by
  induction bought generalizing first with
  | nil => exact ⟨hp, trivial⟩
  | cons q rest ih =>
    refine ⟨h.1, ih h.2 ?_⟩
    rw [hp, units, List.map_cons, List.sum_cons, Nat.add_assoc]
    rfl

theorem Consecutive.le_firstId {first : Nat} {bought : List (Address × MintReceipt)}
    (h : Consecutive first bought) {p : Address × MintReceipt} (hp : p ∈ bought) :
    first ≤ p.2.firstId.toNat := by
  induction bought generalizing first with
  | nil => cases hp
  | cons q rest ih =>
    rcases List.mem_cons.mp hp with rfl | hp
    · exact h.1.ge
    · exact (Nat.le_add_right _ _).trans (ih h.2 hp)

theorem Consecutive.pairwise_disjoint {first : Nat} {bought : List (Address × MintReceipt)}
    (h : Consecutive first bought) : bought.Pairwise fun p q => Disjoint p.2.ids q.2.ids := by
  induction bought generalizing first with
  | nil => exact List.Pairwise.nil
  | cons p rest ih =>
    refine List.Pairwise.cons ?_ (ih h.2)
    intro q hq
    have hle := h.2.le_firstId hq
    rw [Finset.disjoint_left]
    intro id hid hid'
    rw [MintReceipt.ids, Finset.mem_Ico] at hid hid'
    have hfirst := h.1
    omega

/-! ## The counters -/

namespace Sale

/-- The counters of a sale deployed with `config` are those of its history. -/
structure Tallies (config : Config) (entries : List Entry) (s : Sale) : Prop where
  limit : s.slot .supplyLimit = .ofUInt64 config.supplyLimit
  supply_le : s.slot .totalSupply ≤ s.slot .totalMinted
  minted_le : s.slot .totalMinted ≤ s.slot .supplyLimit
  minted : (s.slot .totalMinted).toNat = units (purchases entries)
  minted_to : ∀ account, (s.numberMinted account).toNat = unitsOf account (purchases entries)
  supply : (s.slot .totalSupply).toNat + burns entries = (s.slot .totalMinted).toNat
  remaining : s.remaining.toNat + (s.slot .totalMinted).toNat = (s.slot .supplyLimit).toNat
  consecutive : Consecutive 1 (purchases entries)
  disjoint : (purchases entries).Pairwise fun p q => Disjoint p.2.ids q.2.ids

/-- A sale in stock whose registry stands for the roll of its history. -/
structure Booked (config : Config) (past : List Entry) (s : Sale) : Prop where
  inStock : s.InStock
  limit : s.config.supplyLimit = config.supplyLimit
  roll : ∃ a, Registry.Represents a s.registry ∧ a.issued = units (purchases past) ∧
    ∀ account, a.received account = unitsOf account (purchases past)
  burned : s.registry.burned.toNat = burns past
  consecutive : Consecutive 1 (purchases past)

variable {config : Config} {past : List Entry} {s t : Sale}

theorem booked_of_deploy {pricing : Pricing} {tiers : TierOracle}
    (h : (deploy config pricing tiers).1 = .ok s) : Booked config [] s := by
  have hstock := inStock_of_deploy h
  obtain ⟨rfl, -⟩ := deploy_eq_ok h
  exact ⟨hstock, rfl, ⟨.empty, Registry.represents_empty, rfl, fun _ => rfl⟩, rfl, trivial⟩

/-- A call that neither sells nor burns. -/
theorem Booked.idle (h : Booked config past s) {e : Entry} (hpurchase : e.purchase? = none)
    (hburned : e.burned = false) (hregistry : t.registry = s.registry)
    (hlimit : t.config.supplyLimit = s.config.supplyLimit) : Booked config (past ++ [e]) t := by
  have hpurchases : purchases (past ++ [e]) = purchases past := by
    rw [purchases_snoc, hpurchase, Option.toList_none, List.append_nil]
  have hburns : burns (past ++ [e]) = burns past := by
    rw [burns_snoc, hburned, if_neg Bool.false_ne_true, Nat.add_zero]
  refine ⟨⟨?_, ?_⟩, hlimit.trans h.limit, ?_, ?_, ?_⟩
  · rw [hregistry, hlimit]
    exact h.inStock.minted_le
  · rw [hlimit]
    exact h.inStock.limit_le
  · rw [hregistry, hpurchases]
    exact h.roll
  · rw [hregistry, hburns]
    exact h.burned
  · rw [hpurchases]
    exact h.consecutive

theorem Booked.toNat_totalMinted (h : Booked config past s) :
    s.registry.totalMinted.toNat = units (purchases past) := by
  obtain ⟨a, ha, hissued, -⟩ := h.roll
  rw [ha.issued, hissued]

theorem Booked.sold (h : Booked config past s) {call : Call} {order : Order} {p : Purchase}
    (hunits : p.units.toNat ≤ s.remaining.toNat) :
    Booked config (past ++ [⟨.mint call order, .ok (.minted (s.receipt call p))⟩])
      (s.sold call.caller p) := by
  have hpurchases : purchases (past ++ [⟨.mint call order, .ok (.minted (s.receipt call p))⟩]) =
      purchases past ++ [(call.caller, s.receipt call p)] := purchases_snoc past _
  have hids := h.inStock.ids_suffice hunits
  obtain ⟨a, ha, hissued, hreceived⟩ := h.roll
  rw [ha.toNat_firstId_add] at hids
  refine ⟨h.inStock.sold hunits call.caller, h.limit, ⟨a.issue call.caller p.units.lowUInt64.toNat,
    Registry.represents_addBatch ha call.caller hids, ?_, ?_⟩, ?_, ?_⟩
  · rw [hpurchases, units_snoc, ← hissued]
    rfl
  · intro account
    rw [hpurchases, unitsOf_snoc, ← hreceived]
    by_cases haccount : account = call.caller
    · subst haccount
      rw [Roll.issue, if_pos rfl]
      exact if_pos rfl
    · rw [if_neg fun heq => haccount heq.symm]
      exact if_neg haccount
  · rw [burns_snoc]
    exact h.burned
  · rw [hpurchases]
    refine consecutive_snoc h.consecutive ?_
    rw [← h.toNat_totalMinted]
    exact h.inStock.toNat_firstId_add

theorem Booked.removed (h : Booked config past s) {caller : Address} {id : UInt64}
    (howner : s.registry.owner id = .ok caller) :
    Booked config (past ++ [⟨.burn caller id, .ok .done⟩])
      { s with registry := s.registry.removeToken caller id } := by
  have hpurchases : purchases (past ++ [⟨.burn caller id, .ok .done⟩]) = purchases past := by
    rw [purchases_snoc]
    exact List.append_nil _
  obtain ⟨a, ha, hissued, hreceived⟩ := h.roll
  refine ⟨⟨h.inStock.minted_le, h.inStock.limit_le⟩, h.limit, ⟨a.revoke id.toNat,
    Registry.represents_removeToken ha howner, ?_, ?_⟩, ?_, ?_⟩
  · rw [hpurchases]
    exact hissued
  · rw [hpurchases]
    exact hreceived
  · rw [burns_snoc, ← h.burned]
    exact ha.toNat_burned_add
  · rw [hpurchases]
    exact h.consecutive

theorem booked_answer (h : Booked config past s) (turn : Turn) :
    Booked config (past ++ [(s.answer turn).1]) (s.answer turn).2 := by
  have hmet : Booked config past (s.met turn).sale :=
    ⟨h.inStock.met turn, h.limit, h.roll, h.burned, h.consecutive⟩
  obtain ⟨l, heffect⟩ := effect_answer h.inStock turn
  generalize s.answer turn = answered at heffect ⊢
  obtain ⟨⟨request, reply⟩, t⟩ := answered
  dsimp only at heffect ⊢
  cases heffect with
  | refused _ => exact hmet.idle (Entry.purchase?_refused _ _) (Entry.burned_refused _ _) rfl rfl
  | minted hassess _ => exact hmet.sold (units_le_remaining hassess)
  | withdrawn _ _ => exact hmet.idle rfl rfl rfl rfl
  | burned howner => exact hmet.removed howner
  | recipientSet _ => exact hmet.idle rfl rfl rfl rfl
  | ownerSet _ => exact hmet.idle rfl rfl rfl rfl

theorem Booked.tallies (h : Booked config past s) : Tallies config past s := by
  obtain ⟨a, ha, hissued, hreceived⟩ := h.roll
  have hsupply := ha.supply
  have htotal : (s.slot .totalSupply).toNat = a.totalSupply := ha.agrees.totalSupply
  have hminted : (s.slot .totalMinted).toNat = a.issued := ha.issued
  have hburned := h.burned
  have hle := UInt64.le_iff_toNat_le.mp h.inStock.minted_le
  refine ⟨congrArg Word.ofUInt64 h.limit, ?_, hle, hminted.trans hissued, ?_, ?_, ?_, h.consecutive,
    h.consecutive.pairwise_disjoint⟩
  · rw [Word.le_def, htotal, hminted]
    omega
  · intro account
    rw [← hreceived]
    exact ha.numberMinted account
  · rw [htotal, hminted]
    omega
  · rw [h.inStock.toNat_remaining]
    exact Nat.sub_add_cancel hle

/-! ## Nothing left -/

theorem assess_of_remaining_eq_zero (h : s.remaining = 0) (call : Call) (order : Order) :
    ∃ refusal, s.assess call order = (.error refusal, []) ∧
      refusal.reason ∈ ["0_MINIMUM", "MINIMUM_OVER_DESIRED", "INSUFFICIENT_STOCK"] := by
  rw [assess, h]
  split
  · exact ⟨_, rfl, List.mem_of_elem_eq_true rfl⟩
  rename_i hmin
  split
  · exact ⟨_, rfl, List.mem_of_elem_eq_true rfl⟩
  have hshort : min order.desired (.ofUInt64 0) < order.minimum := by
    rw [Word.lt_def, Word.toNat_min]
    have hpos : 0 < order.minimum.toNat := Nat.pos_of_ne_zero fun hzero => hmin (Word.ext hzero)
    exact (Nat.min_le_right _ _).trans_lt hpos
  rw [if_pos hshort]
  exact ⟨_, rfl, List.mem_of_elem_eq_true rfl⟩

theorem outOfStock_answer (h : s.remaining = 0) (turn : Turn) : (s.answer turn).1.OutOfStock := by
  intro call order hrequest
  have hturn : turn.request = .mint call order := hrequest
  obtain ⟨refusal, hassess, hreason⟩ := assess_of_remaining_eq_zero (s := (s.met turn).sale) h call order
  have hmint := Market.perform_mint call order (s.met turn)
  rw [hassess] at hmint
  refine ⟨refusal, ?_, hreason⟩
  rw [answer, hturn, Market.serve, Action.perform_bind_of_error hmint]

theorem remaining_answer_of_eq_zero (hs : s.InStock) (h : s.remaining = 0) (turn : Turn) :
    (s.answer turn).2.remaining = 0 := by
  have hmet : (s.met turn).sale.remaining = 0 := h
  obtain ⟨l, heffect⟩ := effect_answer hs turn
  generalize s.answer turn = answered at heffect ⊢
  obtain ⟨⟨request, reply⟩, t⟩ := answered
  dsimp only at heffect ⊢
  cases heffect with
  | refused _ => exact hmet
  | minted hassess _ =>
    obtain ⟨refusal, hrefused, -⟩ := assess_of_remaining_eq_zero hmet _ _
    rw [hassess] at hrefused
    cases hrefused
  | withdrawn _ _ => exact hmet
  | burned _ => exact hmet
  | recipientSet _ => exact hmet
  | ownerSet _ => exact hmet

/-- A sale with nothing left, which it has told every buyer of `past`. -/
structure SoldOut (past : List Entry) (s : Sale) : Prop where
  inStock : s.InStock
  remaining : s.remaining = 0
  refused : ∀ e ∈ past, e.OutOfStock

theorem soldOut_answer (h : SoldOut past s) (turn : Turn) :
    SoldOut (past ++ [(s.answer turn).1]) (s.answer turn).2 where
  inStock := inStock_answer h.inStock turn
  remaining := remaining_answer_of_eq_zero h.inStock h.remaining turn
  refused := by
    intro e he
    rcases List.mem_append.mp he with he | he
    · exact h.refused e he
    · obtain rfl := List.mem_singleton.mp he
      exact outOfStock_answer h.remaining turn

/-- **The supply of a sale.** Whatever calls a deployed sale answers, its counters are those of its history: no more is
in circulation than was minted and no more minted than the supply limit allows, the minted tokens are those of all
receipts, in all and by account, and those in circulation are the ones not burned; and the ids on the receipts run
from one without a gap. Once nothing is left, every later purchase is refused, whatever is burned. -/
theorem tallies_of_deploy {pricing : Pricing} {tiers : TierOracle}
    (h : (deploy config pricing tiers).1 = .ok s) (turns : List Turn) :
    Tallies config (s.trade turns).1 (s.trade turns).2 ∧
      ((s.trade turns).2.remaining = 0 →
        ∀ later, ∀ e ∈ ((s.trade turns).2.trade later).1, e.OutOfStock) := by
  have hbooked : Booked config (s.trade turns).1 (s.trade turns).2 :=
    trade_induction (P := Booked config) (fun _ _ turn hpast => booked_answer hpast turn)
      (booked_of_deploy h) turns
  refine ⟨hbooked.tallies, ?_⟩
  intro hremaining later
  have hnone : SoldOut [] (s.trade turns).2 :=
    ⟨hbooked.inStock, hremaining, fun _ he => absurd he List.not_mem_nil⟩
  exact (trade_induction (P := SoldOut) (fun _ _ turn hpast => soldOut_answer hpast turn) hnone
    later).refused

/-- Two tokens are bought and one of them burned, a stranger fails to burn the other, and then all that is left is
bought. -/
def soldOutTurns : List Turn :=
  let ledger := Ledger.empty.credit .native (.truncate 2) (.ofUInt64 100)
  [⟨.mint ⟨.truncate 2, .ofUInt64 6, 0⟩ ⟨1, .ofUInt64 2, .ofUInt64 3⟩, ledger, .none⟩,
    ⟨.burn (.truncate 2) 1, ledger, .none⟩,
    ⟨.burn (.truncate 3) 2, ledger, .none⟩,
    ⟨.mint ⟨.truncate 2, .ofUInt64 9, 0⟩ ⟨1, .ofUInt64 7, .ofUInt64 3⟩, ledger, .none⟩]

theorem tallies_of_deploy_soldOutTurns :
    (deploy flatConfig flatPricing .none).1 = .ok flatSale ∧
      Tallies flatConfig (flatSale.trade soldOutTurns).1 (flatSale.trade soldOutTurns).2 ∧
      (purchases (flatSale.trade soldOutTurns).1).map (fun p => (p.2.firstId, p.2.units)) =
        [(1, 2), (3, 3)] ∧
      (flatSale.trade soldOutTurns).2.remaining = 0 ∧
      ∀ later, ∀ e ∈ ((flatSale.trade soldOutTurns).2.trade later).1, e.OutOfStock := by
  have hdeploy : (deploy flatConfig flatPricing .none).1 = .ok flatSale := by rfl
  have hremaining : (flatSale.trade soldOutTurns).2.remaining = 0 := by rfl
  obtain ⟨htallies, hlater⟩ := tallies_of_deploy hdeploy soldOutTurns
  exact ⟨hdeploy, htallies, by rfl, hremaining, hlater hremaining⟩

end Sale

end TokenSale
