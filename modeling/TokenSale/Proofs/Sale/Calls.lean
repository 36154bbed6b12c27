import Mathlib.Order.Lattice
import TokenSale.Proofs.Sale.Purchase

/-!
# Refused calls change nothing

A call may be refused late: a purchase is paid for before its tokens are minted, and minting can fail. It does
not, because the sale never sells more than its stock, and its stock never exceeds the ids. `Sale.InStock` says so,
and `Market.Effect` says what a call on such a sale comes to. Every call keeps the sale in stock (`inStock_serve`), hence
every sale that calls lead to is (`Reachable.inStock`), and a refused call on it leaves sale and ledger as they were
(`Sale.Reachable.untouched_of_refused`).
-/

namespace TokenSale

/-! ## Calls -/

/-- A call with its arguments. -/
inductive Request
  | mint (call : Call) (order : Order)
  | withdraw (caller : Address)
  | burn (caller : Address) (id : UInt64)
  | setRecipient (caller recipient : Address)
  | transferOwnership (caller owner : Address)

inductive Reply
  | minted (receipt : MintReceipt)
  | withdrawn (receipt : WithdrawReceipt)
  | done

namespace Market

def serve : Request → Trade Reply
  | .mint call order => do
    let receipt ← mint call order
    pure (.minted receipt)
  | .withdraw caller => do
    let receipt ← withdraw caller
    pure (.withdrawn receipt)
  | .burn caller id => do
    burn caller id
    pure .done
  | .setRecipient caller recipient => do
    setRecipient caller recipient
    pure .done
  | .transferOwnership caller owner => do
    transferOwnership caller owner
    pure .done

end Market

namespace Sale

/-- The sales that calls lead to from deployment. Between two calls the ledger may change at will, and so may the
tier oracle. -/
inductive Reachable : Sale → Prop
  | deployed {config : Config} {pricing : Pricing} {tiers : TierOracle} {s : Sale} :
      (deploy config pricing tiers).1 = .ok s → Reachable s
  | retiered {s : Sale} (tiers : TierOracle) : Reachable s → Reachable { s with tiers := tiers }
  | called {s : Sale} (l : Ledger) (log : List Record) (r : Request) :
      Reachable s → Reachable ((Market.serve r).perform ⟨s, l, log⟩).2.sale

/-! ## The stock -/

/-- No more has been minted than the supply limit, which the ids suffice for. -/
structure InStock (s : Sale) : Prop where
  minted_le : s.registry.totalMinted ≤ s.config.supplyLimit
  limit_le : s.config.supplyLimit ≤ Config.maxSupplyLimit

theorem toNat_maxSupplyLimit : Config.maxSupplyLimit.toNat = UInt64.size - 2 := by decide

theorem InStock.toNat_remaining {s : Sale} (hs : s.InStock) :
    s.remaining.toNat = s.config.supplyLimit.toNat - s.registry.totalMinted.toNat := by
  rw [remaining, if_pos hs.minted_le, UInt64.toNat_sub_of_le _ _ hs.minted_le]

theorem InStock.toNat_firstId_add {s : Sale} (hs : s.InStock) :
    (Registry.firstId + s.registry.totalMinted).toNat = 1 + s.registry.totalMinted.toNat := by
  have hminted := UInt64.le_iff_toNat_le.mp hs.minted_le
  have hlimit := UInt64.le_iff_toNat_le.mp hs.limit_le
  rw [toNat_maxSupplyLimit] at hlimit
  refine Registry.toNat_firstId_add ?_
  simp only [UInt64.size] at hlimit ⊢
  omega

theorem InStock.toNat_units {s : Sale} (hs : s.InStock) {p : Purchase}
    (hunits : p.units.toNat ≤ s.remaining.toNat) :
    p.units.lowUInt64.toNat = p.units.toNat ∧
      s.registry.totalMinted.toNat + p.units.toNat ≤ s.config.supplyLimit.toNat := by
  have hminted := UInt64.le_iff_toNat_le.mp hs.minted_le
  have hlt := s.remaining.toNat_lt
  constructor
  · exact UInt64.toNat_ofNat_of_lt (Nat.lt_of_le_of_lt hunits hlt)
  · rw [hs.toNat_remaining] at hunits
    omega

/-- There is an id for every unit of a purchase. -/
theorem InStock.ids_suffice {s : Sale} (hs : s.InStock) {p : Purchase}
    (hunits : p.units.toNat ≤ s.remaining.toNat) :
    (Registry.firstId + s.registry.totalMinted).toNat + p.units.lowUInt64.toNat < UInt64.size := by
  obtain ⟨hlow, hle⟩ := hs.toNat_units hunits
  have hlimit := UInt64.le_iff_toNat_le.mp hs.limit_le
  rw [toNat_maxSupplyLimit] at hlimit
  rw [hs.toNat_firstId_add, hlow]
  simp only [UInt64.size] at hlimit ⊢
  omega

theorem InStock.sold {s : Sale} (hs : s.InStock) {p : Purchase}
    (hunits : p.units.toNat ≤ s.remaining.toNat) (buyer : Address) : (s.sold buyer p).InStock := by
  obtain ⟨hlow, hle⟩ := hs.toNat_units hunits
  refine ⟨UInt64.le_iff_toNat_le.mpr ?_, hs.limit_le⟩
  show (s.registry.totalMinted + p.units.lowUInt64).toNat ≤ s.config.supplyLimit.toNat
  rw [UInt64.toNat_add, hlow]
  exact Nat.le_trans (Nat.mod_le _ _) hle

/-- All that a deployed sale has passed, and what it starts with. -/
theorem deploy_eq_ok {config : Config} {pricing : Pricing} {tiers : TierOracle} {s : Sale}
    (h : (deploy config pricing tiers).1 = .ok s) :
    s = ⟨config, pricing, .empty, tiers, 0, 0⟩ ∧ config.royaltyBps ≤ Config.maxRoyaltyBps ∧
      config.supplyLimit ≤ Config.maxSupplyLimit ∧ pricing.contextLen ≤ buyContextLen := by
  rw [deploy] at h
  split at h
  · cases h
  · rename_i hnone
    cases h
    rw [deployError?] at hnone
    split at hnone
    · cases hnone
    rename_i hroyalty
    split at hnone
    · cases hnone
    rename_i hlimit
    split at hnone
    · cases hnone
    rename_i hcontext
    exact ⟨rfl, UInt16.not_lt.mp hroyalty, UInt64.not_lt.mp hlimit, Nat.not_lt.mp hcontext⟩

/-- What deployment has checked of a royalty and a script, which no call replaces. -/
structure Admitted (s : Sale) : Prop where
  royaltyBps_le : s.config.royaltyBps ≤ Config.maxRoyaltyBps
  contextLen_le : s.pricing.contextLen ≤ buyContextLen

theorem admitted_of_deploy {config : Config} {pricing : Pricing} {tiers : TierOracle} {s : Sale}
    (h : (deploy config pricing tiers).1 = .ok s) : s.Admitted := by
  obtain ⟨rfl, hroyalty, -, hcontext⟩ := deploy_eq_ok h
  exact ⟨hroyalty, hcontext⟩

theorem inStock_of_deploy {config : Config} {pricing : Pricing} {tiers : TierOracle} {s : Sale}
    (h : (deploy config pricing tiers).1 = .ok s) : s.InStock := by
  obtain ⟨rfl, -, hlimit, -⟩ := deploy_eq_ok h
  exact ⟨UInt64.zero_le, hlimit⟩

end Sale

namespace Market

/-! ## What each call does -/

theorem mint_cases {m : Market} (hm : m.sale.InStock) (call : Call) (order : Order) :
    (∃ e records, (∀ cause, e ≠ .token cause) ∧
        (mint call order).perform m = (.error e, m.logged records)) ∨
      ∃ p l records, m.sale.assess call order = (.ok p, records) ∧
        (charge m.sale.config call.caller p.cost).perform m.ledger = (.ok (), l) ∧
        (mint call order).perform m = (.ok (m.sale.receipt call p),
          ⟨m.sale.sold call.caller p, l,
            m.log ++ records ++ [m.sale.soldReport call.caller p]⟩) := by
  rw [perform_mint]
  rcases hassess : m.sale.assess call order with ⟨e | p, records⟩
  · exact Or.inl ⟨e, records, Sale.assess_ne_token hassess, rfl⟩
  · have hids := hm.ids_suffice (Sale.units_le_remaining hassess)
    rcases settle_cases call p (m.logged records) hids with ⟨e, hpayment, hsettle⟩ | ⟨l, hcharge, hsettle⟩
    · exact Or.inl ⟨e, records, hpayment.ne_token, hsettle⟩
    · exact Or.inr ⟨p, l, records, rfl, hcharge, hsettle⟩

theorem perform_requireRecipient (caller : Address) (m : Market) :
    (requireRecipient caller).perform m =
      if caller = m.sale.config.recipient then (.ok (), m) else (.error (.recipientOnly caller), m) := by
  rw [requireRecipient, Action.perform_bind_of_ok (Action.perform_get m)]
  by_cases hcaller : caller = m.sale.config.recipient
  · rw [if_neg (not_not.mpr hcaller), if_pos hcaller]
    rfl
  · rw [if_pos hcaller, if_neg hcaller]
    rfl

end Market

namespace Sale

def paidOut (s : Sale) : Sale :=
  { s with proceeds := 0, totalWithdrawn := s.totalWithdrawn.satAdd s.proceeds }

def withdrawReceipt (s : Sale) : WithdrawReceipt :=
  ⟨s.config.recipient, s.proceeds, s.totalWithdrawn.satAdd s.proceeds⟩

def withdrawReport (s : Sale) : Record :=
  let total := s.totalWithdrawn.satAdd s.proceeds
  ⟨.info, s!"withdrawn: recipient={s.config.recipient} amount={s.proceeds} total={total}"⟩

end Sale

namespace Market

theorem perform_withdraw (caller : Address) (m : Market) :
    (withdraw caller).perform m =
      let s := m.sale
      if caller ≠ s.config.recipient then (.error (.recipientOnly caller), m)
      else if s.proceeds = 0 then (.error .zeroFund, m)
      else if s.proceeds ≤ m.ledger.balance s.config.currency s.config.address then
        (.ok s.withdrawReceipt,
          ⟨s.paidOut, m.ledger.moved s.config.currency s.config.address s.config.recipient s.proceeds,
            m.log ++ [s.withdrawReport]⟩)
      else
        (.error (.payment (.insufficientBalance s.config.address
          (m.ledger.balance s.config.currency s.config.address) s.proceeds)), m) := by
  have hrecipient := perform_requireRecipient caller m
  rw [withdraw]
  by_cases hcaller : caller = m.sale.config.recipient
  · subst hcaller
    rw [if_pos rfl] at hrecipient
    rw [Action.perform_bind_of_ok hrecipient, Action.perform_bind_of_ok (Action.perform_get m)]
    simp only [ne_eq, not_true_eq_false, if_false]
    by_cases hzero : m.sale.proceeds = 0
    · simp only [if_pos hzero]
      rfl
    simp only [if_neg hzero]
    rw [Action.perform_bind, perform_onLedger, Ledger.perform_transfer]
    by_cases hle : m.sale.proceeds ≤ m.ledger.balance m.sale.config.currency m.sale.config.address
    · simp only [if_pos hle]
      rfl
    · simp only [if_neg hle]
      rfl
  · rw [if_neg hcaller] at hrecipient
    rw [Action.perform_bind_of_error hrecipient]
    simp only [ne_eq, hcaller, not_false_eq_true, if_true]

theorem perform_setRecipient (caller recipient : Address) (m : Market) :
    (setRecipient caller recipient).perform m =
      if caller ≠ m.sale.config.recipient then (.error (.recipientOnly caller), m)
      else
        (.ok (),
          { m with
            sale := { m.sale with config := { m.sale.config with recipient := recipient } }
            log := m.log ++
              [⟨.info, s!"recipient changed: {m.sale.config.recipient} -> {recipient}"⟩] }) := by
  have hrecipient := perform_requireRecipient caller m
  rw [setRecipient]
  by_cases hcaller : caller = m.sale.config.recipient
  · rw [if_pos hcaller] at hrecipient
    rw [Action.perform_bind_of_ok hrecipient]
    simp only [ne_eq, hcaller, not_true_eq_false, if_false]
    rfl
  · rw [if_neg hcaller] at hrecipient
    rw [Action.perform_bind_of_error hrecipient]
    simp only [ne_eq, hcaller, not_false_eq_true, if_true]

theorem perform_transferOwnership (caller owner : Address) (m : Market) :
    (transferOwnership caller owner).perform m =
      if caller ≠ m.sale.config.owner then (.error (.ownerOnly caller), m)
      else
        (.ok (),
          { m with
            sale := { m.sale with config := { m.sale.config with owner := owner } }
            log := m.log ++
              [⟨.info, s!"ownership transferred: {m.sale.config.owner} -> {owner}"⟩] }) := by
  rw [transferOwnership, Action.perform_bind_of_ok (Action.perform_get m)]
  by_cases hcaller : caller = m.sale.config.owner
  · simp only [ne_eq, hcaller, not_true_eq_false, if_false]
    rfl
  · simp only [ne_eq, hcaller, not_false_eq_true, if_true]
    rfl

theorem burn_cases (caller : Address) (id : UInt64) (m : Market) :
    (∃ cause, (burn caller id).perform m = (.error (.token cause), m)) ∨
      m.sale.registry.owner id = .ok caller ∧
        (burn caller id).perform m =
          (.ok (),
            { m with sale := { m.sale with registry := m.sale.registry.removeToken caller id } }) := by
  rw [burn, perform_onRegistry, Registry.perform_burn]
  cases howner : m.sale.registry.owner id with
  | error cause => exact Or.inl ⟨cause, rfl⟩
  | ok account =>
    by_cases hcaller : account = caller
    · subst hcaller
      exact Or.inr ⟨rfl, by simp only [if_true]; rfl⟩
    · simp only [if_neg hcaller]
      exact Or.inl ⟨.notOwner caller id, rfl⟩

/-! ## All calls -/

/-- What a call on a sale in stock comes to: the reply, and the sale and the ledger that are left. A refusal leaves
both as they were, and a purchase is never refused for want of an id. -/
inductive Effect (m : Market) : Request → Except SaleError Reply → Sale → Ledger → Prop
  | refused {r : Request} {e : SaleError} :
      (∀ call order cause, r = .mint call order → e ≠ .token cause) →
      Effect m r (.error e) m.sale m.ledger
  | minted {call : Call} {order : Order} {p : Purchase} {records : List Record} {l : Ledger} :
      m.sale.assess call order = (.ok p, records) →
      (charge m.sale.config call.caller p.cost).perform m.ledger = (.ok (), l) →
      Effect m (.mint call order) (.ok (.minted (m.sale.receipt call p)))
        (m.sale.sold call.caller p) l
  | withdrawn :
      m.sale.proceeds ≠ 0 →
      m.sale.proceeds ≤ m.ledger.balance m.sale.config.currency m.sale.config.address →
      Effect m (.withdraw m.sale.config.recipient) (.ok (.withdrawn m.sale.withdrawReceipt))
        m.sale.paidOut
        (m.ledger.moved m.sale.config.currency m.sale.config.address m.sale.config.recipient
          m.sale.proceeds)
  | burned {caller : Address} {id : UInt64} :
      m.sale.registry.owner id = .ok caller →
      Effect m (.burn caller id) (.ok .done)
        { m.sale with registry := m.sale.registry.removeToken caller id } m.ledger
  | recipientSet (recipient : Address) :
      Effect m (.setRecipient m.sale.config.recipient recipient) (.ok .done)
        { m.sale with config := { m.sale.config with recipient := recipient } } m.ledger
  | ownerSet (owner : Address) :
      Effect m (.transferOwnership m.sale.config.owner owner) (.ok .done)
        { m.sale with config := { m.sale.config with owner := owner } } m.ledger

theorem effect_serve {m : Market} (hm : m.sale.InStock) (r : Request) :
    Effect m r ((serve r).perform m).1 ((serve r).perform m).2.sale
      ((serve r).perform m).2.ledger := by
  cases r with
  | mint call order =>
    rw [serve]
    rcases mint_cases hm call order with ⟨e, records, hcause, hmint⟩ | ⟨p, l, records, hassess, hcharge, hmint⟩
    · rw [Action.perform_bind_of_error hmint]
      exact .refused fun _ _ cause _ => hcause cause
    · rw [Action.perform_bind_of_ok hmint]
      exact .minted hassess hcharge
  | withdraw caller =>
    have hwithdraw := perform_withdraw caller m
    dsimp only at hwithdraw
    rw [serve]
    split at hwithdraw
    · rw [Action.perform_bind_of_error hwithdraw]
      exact .refused nofun
    rename_i hcaller
    split at hwithdraw
    · rw [Action.perform_bind_of_error hwithdraw]
      exact .refused nofun
    rename_i hzero
    split at hwithdraw
    · rename_i hle
      rw [Action.perform_bind_of_ok hwithdraw]
      obtain rfl := not_not.mp hcaller
      exact .withdrawn hzero hle
    · rw [Action.perform_bind_of_error hwithdraw]
      exact .refused nofun
  | burn caller id =>
    rw [serve]
    rcases burn_cases caller id m with ⟨cause, hburn⟩ | ⟨howner, hburn⟩
    · rw [Action.perform_bind_of_error hburn]
      exact .refused nofun
    · rw [Action.perform_bind_of_ok hburn]
      exact .burned howner
  | setRecipient caller recipient =>
    have hset := perform_setRecipient caller recipient m
    rw [serve]
    split at hset
    · rw [Action.perform_bind_of_error hset]
      exact .refused nofun
    · rename_i hcaller
      rw [Action.perform_bind_of_ok hset]
      obtain rfl := not_not.mp hcaller
      exact .recipientSet recipient
  | transferOwnership caller owner =>
    have htransfer := perform_transferOwnership caller owner m
    rw [serve]
    split at htransfer
    · rw [Action.perform_bind_of_error htransfer]
      exact .refused nofun
    · rename_i hcaller
      rw [Action.perform_bind_of_ok htransfer]
      obtain rfl := not_not.mp hcaller
      exact .ownerSet owner

theorem Effect.admitted {m : Market} {r : Request} {reply : Except SaleError Reply} {s : Sale} {l : Ledger}
    (h : m.Effect r reply s l) (hm : m.sale.Admitted) : s.Admitted := by
  cases h with
  | refused _ => exact hm
  | minted _ _ => exact ⟨hm.royaltyBps_le, hm.contextLen_le⟩
  | withdrawn _ _ => exact ⟨hm.royaltyBps_le, hm.contextLen_le⟩
  | burned _ => exact ⟨hm.royaltyBps_le, hm.contextLen_le⟩
  | recipientSet _ => exact ⟨hm.royaltyBps_le, hm.contextLen_le⟩
  | ownerSet _ => exact ⟨hm.royaltyBps_le, hm.contextLen_le⟩

/-- How a call may end: refused with nothing changed but the log, and never for want of an id in a purchase, or
answered by a sale in stock. -/
def Orderly (m : Market) (r : Request) : Except SaleError Reply × Market → Prop
  | (.error e, t) =>
    t.sale = m.sale ∧ t.ledger = m.ledger ∧ ∀ call order cause, r = .mint call order → e ≠ .token cause
  | (.ok _, t) => t.sale.InStock

theorem orderly_serve {m : Market} (hm : m.sale.InStock) (r : Request) :
    m.Orderly r ((serve r).perform m) := by
  have heffect := effect_serve hm r
  revert heffect
  rcases (serve r).perform m with ⟨reply, s, l, log⟩
  intro heffect
  cases heffect with
  | refused hcause => exact ⟨rfl, rfl, hcause⟩
  | minted hassess _ => exact hm.sold (Sale.units_le_remaining hassess) _
  | withdrawn _ _ => exact ⟨hm.minted_le, hm.limit_le⟩
  | burned _ => exact ⟨hm.minted_le, hm.limit_le⟩
  | recipientSet _ => exact ⟨hm.minted_le, hm.limit_le⟩
  | ownerSet _ => exact ⟨hm.minted_le, hm.limit_le⟩

theorem inStock_serve {m : Market} (hm : m.sale.InStock) (r : Request) :
    ((serve r).perform m).2.sale.InStock := by
  have hend := orderly_serve hm r
  revert hend
  rcases (serve r).perform m with ⟨e | reply, t⟩
  · intro hend
    rw [hend.1]
    exact hm
  · exact id

end Market

namespace Sale

theorem Reachable.inStock {s : Sale} (hs : s.Reachable) : s.InStock := by
  induction hs with
  | deployed h => exact inStock_of_deploy h
  | retiered tiers _ ih => exact ⟨ih.minted_le, ih.limit_le⟩
  | called l log r _ ih => exact Market.inStock_serve ih r

theorem Reachable.admitted {s : Sale} (hs : s.Reachable) : s.Admitted := by
  induction hs with
  | deployed h => exact admitted_of_deploy h
  | retiered tiers _ ih => exact ⟨ih.royaltyBps_le, ih.contextLen_le⟩
  | called l log r hs ih => exact (Market.effect_serve hs.inStock r).admitted ih

/-- **Refused calls change nothing.** On every sale that calls lead to, and against any ledger, a call that is
refused leaves the sale and the ledger as they were. A purchase is never refused by the registry, that is, after
it has been paid for. -/
theorem Reachable.untouched_of_refused {s : Sale} (hs : s.Reachable) (l : Ledger) (log : List Record)
    (r : Request) {e : SaleError} {t : Market}
    (h : (Market.serve r).perform ⟨s, l, log⟩ = (.error e, t)) :
    t.sale = s ∧ t.ledger = l ∧ ∀ call order cause, r = .mint call order → e ≠ .token cause := by
  have hend := Market.orderly_serve (m := ⟨s, l, log⟩) hs.inStock r
  rw [h] at hend
  exact hend

/-- Ten units at most, at a price of three. -/
def flatPricing : Pricing where
  script :=
    { sources := [[Instruction.constant.opcode, 0, Instruction.constant.opcode, 1]]
      constants := [.ofUInt64 10, .ofUInt64 3] }
  summary := ⟨2, 2, 2, 0⟩
  maxSteps := 2
  analyzed := by decide
  finalDepth_eq := rfl
  instructions_le := Nat.le_refl 2

def flatConfig : Config where
  name := "flat"
  symbol := "FLAT"
  baseUri := ""
  supplyLimit := 5
  recipient := .zero
  owner := .zero
  royaltyBps := 0
  currency := .native
  address := .truncate 1

def flatSale : Sale := ⟨flatConfig, flatPricing, .empty, .none, 0, 0⟩

/-- A purchase of two tokens by a buyer who attaches their price. -/
def pairRequest : Request :=
  .mint ⟨.truncate 2, .ofUInt64 6, 0⟩ ⟨.ofUInt64 2, .ofUInt64 2, .ofUInt64 3⟩

/-- A buyer without money is refused. -/
theorem untouched_of_refused_pairRequest :
    flatSale.Reachable ∧ ∃ t,
      (Market.serve pairRequest).perform ⟨flatSale, .empty, []⟩ =
        (.error (.payment (.insufficientBalance (.truncate 2) 0 (.ofUInt64 6))), t) ∧
      t.sale = flatSale ∧ t.ledger = .empty := by
  have hs : flatSale.Reachable :=
    .deployed (show (deploy flatConfig flatPricing .none).1 = .ok flatSale from rfl)
  have hresult : ((Market.serve pairRequest).perform ⟨flatSale, .empty, []⟩).1 =
      .error (.payment (.insufficientBalance (.truncate 2) 0 (.ofUInt64 6))) := by rfl
  have hperform : (Market.serve pairRequest).perform ⟨flatSale, .empty, []⟩ =
      (_, ((Market.serve pairRequest).perform ⟨flatSale, .empty, []⟩).2) := Prod.ext hresult rfl
  have huntouched := hs.untouched_of_refused .empty [] pairRequest hperform
  exact ⟨hs, _, hperform, huntouched.1, huntouched.2.1⟩

end Sale

end TokenSale
