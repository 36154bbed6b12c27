import TokenSale.Proofs.Registry.Refinement
import TokenSale.Proofs.Sale.Payment

/-!
# Bystanders lose nothing

Whoever neither makes a call nor is the sale itself keeps all that the call could take: tokens, money, allowances
granted, and the roles of recipient and owner (`Market.Spares`). A new batch starts above every token there is, so it
hides none of them (`Represents.spares_addBatch`). A burn takes a token that the caller owns, a purchase is charged to the
caller, and a withdrawal moves money from the sale to its caller.
-/

namespace TokenSale

def Request.caller : Request → Address
  | .mint call _ => call.caller
  | .withdraw caller => caller
  | .burn caller _ => caller
  | .setRecipient caller _ => caller
  | .transferOwnership caller _ => caller

/-! ## Tokens -/

namespace Registry

/-- The tokens of an account in `r` are its tokens in `r'`. -/
structure Spares (r r' : Registry) (account : Address) : Prop where
  owner : ∀ id, r.owner id = .ok account → r'.owner id = .ok account
  balance : r'.balance account = r.balance account
  numberMinted : r'.numberMinted account = r.numberMinted account

theorem Spares.refl (r : Registry) (account : Address) : r.Spares r account :=
  ⟨fun _ howner => howner, rfl, rfl⟩

variable {a : Roll} {r : Registry} {account caller : Address}

theorem Represents.spares_addBatch (h : Represents a r) (hne : account ≠ caller) {quantity : UInt64}
    (hids : 1 + a.issued + quantity.toNat < UInt64.size) :
    r.Spares (r.addBatch caller quantity) account where
  owner := by
    intro id howner
    have hle := (h.of_owner howner).1.2
    rw [h.owner_addBatch_eq caller hids, if_neg fun hnew => Nat.not_le.mpr hnew.1 hle, howner]
  balance := by
    unfold Registry.balance addBatch
    rw [Table.getD_set, if_neg hne]
  numberMinted := by
    unfold Registry.numberMinted addBatch
    rw [Table.getD_set, if_neg hne]

theorem Represents.spares_removeToken (h : Represents a r) (hne : account ≠ caller) {id : UInt64}
    (hburned : r.owner id = .ok caller) : r.Spares (r.removeToken caller id) account where
  owner := by
    intro other howner
    have hother : other.toNat ≠ id.toNat := by
      intro heq
      obtain rfl := UInt64.toNat_inj.mp heq
      rw [hburned] at howner
      exact hne (Except.ok.inj howner).symm
    have hroll := (h.of_owner howner).2
    have hkept : (a.revoke id.toNat).owner other.toNat = a.owner other.toNat := if_neg hother
    have hnew := represents_removeToken h hburned
    rw [hnew.owner_eq, Roll.ownerOf, hkept, hroll]
  balance := by
    obtain ⟨n, hget, -⟩ := h.exists_balance hburned
    unfold Registry.balance removeToken
    simp only [hget]
    rw [Table.getD_set, if_neg hne]
  numberMinted := rfl

end Registry

/-! ## Money -/

namespace Ledger

/-- The money of an account in `l`, and what it allows others to take, is the same in `l'`. -/
structure Spares (l l' : Ledger) (account : Address) : Prop where
  balance : ∀ currency, l'.balance currency account = l.balance currency account
  allowance : ∀ token spender, l'.allowance token account spender = l.allowance token account spender

theorem Spares.refl (l : Ledger) (account : Address) : l.Spares l account :=
  ⟨fun _ => rfl, fun _ _ => rfl⟩

theorem spares_moved (l : Ledger) {giver taker account : Address} (hgiver : account ≠ giver)
    (htaker : account ≠ taker) (currency : Currency) (amount : Word) :
    l.Spares (l.moved currency giver taker amount) account where
  balance := by
    intro currency'
    apply balance_moved_of_ne
    · intro heq
      exact hgiver (Prod.mk.inj heq).2
    · intro heq
      exact htaker (Prod.mk.inj heq).2
  allowance _ _ := rfl

end Ledger

namespace Market

theorem spares_charge {config : Config} {caller account : Address} {cost : Word} {l l' : Ledger}
    (h : (charge config caller cost).perform l = (.ok (), l')) (hcaller : account ≠ caller)
    (hsale : account ≠ config.address) : l.Spares l' account where
  balance := by
    intro currency
    have hmoved := l.spares_moved hcaller hsale config.currency cost
    rw [balance_of_charge h, hmoved.balance]
  allowance := by
    intro token spender
    apply allowance_of_charge h
    intro _ heq
    exact hcaller (Prod.mk.inj heq).1

/-! ## Calls -/

/-- What an account has in `m` it has in `t`. -/
structure Spares (m t : Market) (account : Address) : Prop where
  registry : m.sale.registry.Spares t.sale.registry account
  ledger : m.ledger.Spares t.ledger account
  recipient : m.sale.config.recipient = account → t.sale.config.recipient = account
  owner : m.sale.config.owner = account → t.sale.config.owner = account

variable {m : Market} {r : Request} {reply : Except SaleError Reply} {s : Sale} {l : Ledger}

theorem ids_suffice {a : Roll} (hm : m.sale.InStock) (ha : Registry.Represents a m.sale.registry)
    {call : Call} {order : Order} {p : Purchase} {records : List Record}
    (hassess : m.sale.assess call order = (.ok p, records)) :
    1 + a.issued + p.units.lowUInt64.toNat < UInt64.size := by
  have hids := hm.ids_suffice (Sale.units_le_remaining hassess)
  rw [ha.toNat_firstId_add] at hids
  exact hids

theorem Effect.represents (h : m.Effect r reply s l) (hm : m.sale.InStock)
    (hroll : ∃ a, Registry.Represents a m.sale.registry) : ∃ a, Registry.Represents a s.registry := by
  obtain ⟨a, ha⟩ := hroll
  cases h with
  | refused _ => exact ⟨a, ha⟩
  | minted hassess _ => exact ⟨_, Registry.represents_addBatch ha _ (ids_suffice hm ha hassess)⟩
  | withdrawn _ _ => exact ⟨a, ha⟩
  | burned howner => exact ⟨_, Registry.represents_removeToken ha howner⟩
  | recipientSet _ => exact ⟨a, ha⟩
  | ownerSet _ => exact ⟨a, ha⟩

theorem Effect.spares (h : m.Effect r reply s l) (hm : m.sale.InStock) {a : Roll}
    (ha : Registry.Represents a m.sale.registry) {account : Address} (hcaller : account ≠ r.caller)
    (hsale : account ≠ m.sale.config.address) (log : List Record) : m.Spares ⟨s, l, log⟩ account := by
  have hregistry := Registry.Spares.refl m.sale.registry account
  have hledger := Ledger.Spares.refl m.ledger account
  cases h with
  | refused _ => exact ⟨hregistry, hledger, id, id⟩
  | minted hassess hcharge =>
    have hids := ids_suffice hm ha hassess
    exact ⟨ha.spares_addBatch hcaller hids, spares_charge hcharge hcaller hsale, id, id⟩
  | withdrawn _ _ => exact ⟨hregistry, m.ledger.spares_moved hsale hcaller _ _, id, id⟩
  | burned howner => exact ⟨ha.spares_removeToken hcaller howner, hledger, id, id⟩
  | recipientSet _ =>
    -- the recipient is the caller, so a bystander is not the recipient
    exact ⟨hregistry, hledger, fun heq => absurd heq.symm hcaller, id⟩
  | ownerSet _ => exact ⟨hregistry, hledger, id, fun heq => absurd heq.symm hcaller⟩

end Market

namespace Sale

theorem Reachable.represents {s : Sale} (hs : s.Reachable) : ∃ a, Registry.Represents a s.registry := by
  induction hs with
  | deployed h =>
    obtain ⟨rfl, -⟩ := deploy_eq_ok h
    exact ⟨_, Registry.represents_empty⟩
  | retiered tiers _ ih => exact ih
  | @called s l log r hs ih =>
    have heffect := Market.effect_serve (m := ⟨s, l, log⟩) hs.inStock r
    exact heffect.represents hs.inStock ih

/-- **Bystanders lose nothing.** On every sale that calls lead to, and against any ledger, a call by someone else leaves
an account that is not the sale's its tokens, its counts, its money, the allowances it granted and its roles, whether
the call is answered or refused. -/
theorem Reachable.spares_bystander {s : Sale} (hs : s.Reachable) (l : Ledger) (log : List Record)
    (r : Request) {account : Address} (hcaller : account ≠ r.caller)
    (hsale : account ≠ s.config.address) :
    Market.Spares ⟨s, l, log⟩ ((Market.serve r).perform ⟨s, l, log⟩).2 account := by
  obtain ⟨a, ha⟩ := hs.represents
  have heffect := Market.effect_serve (m := ⟨s, l, log⟩) hs.inStock r
  exact heffect.spares hs.inStock ha hcaller hsale _

/-- Six coins for each of two buyers. -/
def crowdLedger : Ledger :=
  (Ledger.empty.credit .native (.truncate 2) (.ofUInt64 6)).credit .native (.truncate 3) (.ofUInt64 6)

/-- The flat sale after the first buyer has bought two tokens. -/
def pairSale : Sale := ((Market.serve pairRequest).perform ⟨flatSale, crowdLedger, []⟩).2.sale

/-- The second buyer asks for as many. -/
def laterRequest : Request :=
  .mint ⟨.truncate 3, .ofUInt64 6, 0⟩ ⟨.ofUInt64 2, .ofUInt64 2, .ofUInt64 3⟩

theorem spares_bystander_pairSale :
    pairSale.Reachable ∧ pairSale.registry.owner 2 = .ok (.truncate 2) ∧ ∃ receipt t,
      (Market.serve laterRequest).perform ⟨pairSale, crowdLedger, []⟩ = (.ok (.minted receipt), t) ∧
      t.sale.registry.owner 3 = .ok (.truncate 3) ∧ t.sale.registry.owner 2 = .ok (.truncate 2) ∧
      t.sale.registry.balance (.truncate 2) = 2 ∧
      t.ledger.balance .native (.truncate 2) = .ofUInt64 6 := by
  have hflat : flatSale.Reachable :=
    .deployed (show (deploy flatConfig flatPricing .none).1 = .ok flatSale from rfl)
  have hs : pairSale.Reachable := .called crowdLedger [] pairRequest hflat
  have howner : pairSale.registry.owner 2 = .ok (.truncate 2) := by rfl
  have hresult : ((Market.serve laterRequest).perform ⟨pairSale, crowdLedger, []⟩).1 =
      .ok (.minted ⟨3, 2, .ofUInt64 3, .ofUInt64 6, 0⟩) := by rfl
  have hspares := hs.spares_bystander crowdLedger [] laterRequest
    (show Address.truncate 2 ≠ .truncate 3 by decide)
    (show Address.truncate 2 ≠ .truncate 1 by decide)
  refine ⟨hs, howner, _, _, Prod.ext hresult rfl, by rfl, hspares.registry.owner 2 howner, ?_, ?_⟩
  · have hbalance : pairSale.registry.balance (.truncate 2) = 2 := by rfl
    exact hspares.registry.balance.trans hbalance
  · have hmoney : crowdLedger.balance .native (.truncate 2) = .ofUInt64 6 := by rfl
    exact (hspares.ledger.balance .native).trans hmoney

end Sale

end TokenSale
