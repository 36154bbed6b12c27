import Mathlib.Algebra.Order.BigOperators.Group.List
import Mathlib.Algebra.Order.Ring.Nat
import TokenSale.Proofs.Sale.Payment
import TokenSale.Proofs.Sale.Proceeds

/-!
# Approvals bound spending

An allowance is what is left of the last approval. Every event on the ledger either approves anew or lowers the
allowance by what it spends of it, which is nothing for most events (`Event.Settles`). A purchase spends of what its
buyer allows the sale. So the allowance and all that was spent since the last approval come to the amount approved,
however the uses of the ledger and the calls on the sale follow on each other: `Market.Course.allowance_add_spent`.
-/

namespace TokenSale

/-- Who lets whom spend which token. -/
structure Grant where
  token : Address
  owner : Address
  spender : Address
deriving DecidableEq

namespace Ledger

/-- What the spender of a grant may still move. -/
def granted (l : Ledger) (g : Grant) : Word := l.allowance g.token g.owner g.spender

theorem granted_approve (l : Ledger) (token owner spender : Address) (amount : Word) (g : Grant) :
    (l.approve token owner spender amount).granted g =
      if ⟨token, owner, spender⟩ = g then amount else l.granted g := by
  rw [granted, granted, allowance_approve]
  by_cases hg : ⟨token, owner, spender⟩ = g
  · subst hg
    rw [if_pos rfl, if_pos rfl]
  · have hne : (g.token, g.owner, g.spender) ≠ (token, owner, spender) := by
      intro heq
      cases heq
      exact hg rfl
    rw [if_neg hne, if_neg hg]

end Ledger

/-- A use of the ledger or a call on the sale, and how it was answered. -/
inductive Event
  | used (call : LedgerCall) (result : Except PaymentError Unit)
  | answered (entry : Entry)

/-! ## What events say -/

/-- What the sale took from a buyer. -/
def Entry.charged (buyer : Address) (e : Entry) : Nat :=
  match e.purchase? with
  | some (account, receipt) => if account = buyer then receipt.totalCost.toNat else 0
  | none => 0

namespace Event

def charged (buyer : Address) : Event → Nat
  | used _ _ => 0
  | answered e => e.charged buyer

/-- The amount of a new approval. -/
def approved? (g : Grant) : Event → Option Word
  | used (.approve token owner spender amount) (.ok ()) =>
    if ⟨token, owner, spender⟩ = g then some amount else none
  | _ => none

/-- What is spent of an approval: by a transfer on behalf of its spender or, if that is the sale with the terms of
`config`, by a purchase. -/
def spent (config : Config) (g : Grant) : Event → Nat
  | used (.transferFrom token spender giver _ amount) (.ok ()) =>
    if ⟨token, giver, spender⟩ = g then amount.toNat else 0
  | answered e =>
    if config.currency = .token g.token ∧ config.address = g.spender then e.charged g.owner else 0
  | _ => 0

end Event

/-- The events since the last approval. In a course of events the latest is the first. -/
def sinceApproval (g : Grant) (past : List Event) : List Event :=
  past.takeWhile fun e => (e.approved? g).isNone

/-- The amount last approved, zero if there was none. -/
def lastApproved (g : Grant) (past : List Event) : Word := (past.findSome? (Event.approved? g)).getD 0

def spentSince (config : Config) (g : Grant) (past : List Event) : Nat :=
  ((sinceApproval g past).map (Event.spent config g)).sum

/-- What the sale took from the owner since the last approval. -/
def chargedSince (g : Grant) (past : List Event) : Nat :=
  ((sinceApproval g past).map (Event.charged g.owner)).sum

/-! ## One event -/

/-- What an event does to an allowance, which is `w` before it and `w'` after it. -/
structure Event.Settles (config : Config) (g : Grant) (e : Event) (w w' : Word) : Prop where
  approved : ∀ amount, e.approved? g = some amount → w' = amount
  spent : e.approved? g = none → w'.toNat + e.spent config g = w.toNat

/-- The allowance `w` is what is left of the last approval. -/
def Covered (config : Config) (g : Grant) (past : List Event) (w : Word) : Prop :=
  w.toNat + spentSince config g past = (lastApproved g past).toNat

variable {config : Config} {g : Grant} {past : List Event} {e : Event} {w w' : Word}

theorem Covered.cons (h : Covered config g past w) (he : e.Settles config g w w') :
    Covered config g (e :: past) w' := by
  unfold Covered at h ⊢
  cases happroved : e.approved? g with
  | some amount =>
    have hsince : sinceApproval g (e :: past) = [] := by
      rw [sinceApproval, List.takeWhile_cons_of_neg (by rw [happroved]; exact Bool.false_ne_true)]
    have hlast : lastApproved g (e :: past) = amount := by
      rw [lastApproved, List.findSome?_cons_of_isSome (by rw [happroved]; rfl), happroved]
      rfl
    rw [spentSince, hsince, hlast, he.approved amount happroved]
    rfl
  | none =>
    have hsince : sinceApproval g (e :: past) = e :: sinceApproval g past := by
      rw [sinceApproval, List.takeWhile_cons_of_pos (by rw [happroved]; rfl)]
      rfl
    have hlast : lastApproved g (e :: past) = lastApproved g past := by
      rw [lastApproved, List.findSome?_cons_of_isNone (by rw [happroved]; rfl)]
      rfl
    have hspent := he.spent happroved
    rw [spentSince, hsince, List.map_cons, List.sum_cons, hlast, ← h, ← hspent, spentSince]
    omega

/-- An event that neither approves nor spends. -/
theorem Event.settles_idle (happroved : e.approved? g = none) (hspent : e.spent config g = 0) :
    e.Settles config g w w where
  approved := by
    intro amount h
    rw [happroved] at h
    cases h
  spent _ := by rw [hspent, Nat.add_zero]

/-- What a buyer is charged by a token sale is spent of what the buyer allows the sale. -/
theorem chargedSince_le_spentSince (past : List Event) (hcurrency : config.currency = .token g.token)
    (haddress : config.address = g.spender) : chargedSince g past ≤ spentSince config g past := by
  apply List.sum_le_sum
  intro e _
  cases e with
  | used call result => exact Nat.zero_le _
  | answered entry =>
    show entry.charged g.owner ≤ Event.spent config g (.answered entry)
    rw [Event.spent, if_pos ⟨hcurrency, haddress⟩]

theorem Ledger.Effect.settles {l l' : Ledger} {call : LedgerCall} {result : Except PaymentError Unit}
    (h : l.Effect call result l') (config : Config) (g : Grant) :
    (Event.used call result).Settles config g (l.granted g) (l'.granted g) := by
  cases h with
  | refused =>
    cases call <;> exact Event.settles_idle rfl rfl
  | credited currency account amount => exact Event.settles_idle rfl rfl
  | transferred hle => exact Event.settles_idle rfl rfl
  | approved token owner spender amount =>
    show (Event.used (.approve token owner spender amount) (.ok ())).Settles config g (l.granted g)
      ((l.approve token owner spender amount).granted g)
    rw [granted_approve]
    by_cases hg : ⟨token, owner, spender⟩ = g
    · rw [if_pos hg]
      refine ⟨?_, ?_⟩
      · intro approved h
        rw [Event.approved?, if_pos hg] at h
        exact Option.some.inj h
      · intro h
        rw [Event.approved?, if_pos hg] at h
        cases h
    · rw [if_neg hg]
      exact Event.settles_idle (if_neg hg) rfl
  | @transferredFrom token spender giver taker amount hallowed hle =>
    show (Event.used (.transferFrom token spender giver taker amount) (.ok ())).Settles config g (l.granted g)
      (((l.moved (.token token) giver taker amount).approve token giver spender
        ((l.allowance token giver spender).satSub amount)).granted g)
    rw [granted_approve]
    by_cases hg : ⟨token, giver, spender⟩ = g
    · rw [if_pos hg]
      refine ⟨nofun, fun _ => ?_⟩
      subst hg
      rw [Event.spent, if_pos rfl, Word.toNat_satSub]
      exact Nat.sub_add_cancel hallowed
    · rw [if_neg hg]
      exact Event.settles_idle rfl (if_neg hg)

namespace Market

/-- A charge spends of what the buyer allows the sale in its token, and of nothing else. -/
theorem granted_of_charge {config : Config} {caller : Address} {cost : Word} {l l' : Ledger}
    (h : (charge config caller cost).perform l = (.ok (), l')) (g : Grant) :
    (l'.granted g).toNat +
        (if config.currency = .token g.token ∧ config.address = g.spender then
          if caller = g.owner then cost.toNat else 0 else 0) =
      (l.granted g).toNat := by
  obtain ⟨token, owner, spender⟩ := g
  show (l'.allowance token owner spender).toNat + _ = (l.allowance token owner spender).toNat
  dsimp only
  by_cases hsale : config.currency = .token token ∧ config.address = spender
  · rw [if_pos hsale]
    obtain ⟨hcurrency, rfl⟩ := hsale
    by_cases hcaller : caller = owner
    · subst hcaller
      rw [if_pos rfl]
      exact allowance_spent h hcurrency
    · rw [if_neg hcaller, allowance_of_charge h]
      · rfl
      · intro _ heq
        exact hcaller (Prod.mk.inj heq).1.symm
  · rw [if_neg hsale, allowance_of_charge h]
    · rfl
    · intro hcurrency heq
      exact hsale ⟨hcurrency, (Prod.mk.inj heq).2.symm⟩

variable {m : Market} {r : Request} {reply : Except SaleError Reply} {s : Sale} {l : Ledger}

theorem Effect.settles (h : m.Effect r reply s l) (g : Grant) :
    (Event.answered ⟨r, reply⟩).Settles m.sale.config g (m.ledger.granted g) (l.granted g) := by
  cases h with
  | refused _ =>
    refine Event.settles_idle rfl ?_
    rw [Event.spent, Entry.charged, Entry.purchase?_refused, ite_self]
  | minted _ hcharge => exact ⟨nofun, fun _ => granted_of_charge hcharge g⟩
  | withdrawn _ _ => exact Event.settles_idle rfl (ite_self _)
  | burned _ => exact Event.settles_idle rfl (ite_self _)
  | recipientSet _ => exact Event.settles_idle rfl (ite_self _)
  | ownerSet _ => exact Event.settles_idle rfl (ite_self _)

/-! ## Courses of events -/

/-- The events that may follow each other from a market on, the latest first, and the markets that they lead to. Between
two of them the tier oracle may change at will. -/
inductive Course (start : Market) : List Event → Market → Prop
  | opened : Course start [] start
  | used {past : List Event} {m : Market} (call : LedgerCall) :
      Course start past m →
      Course start (.used call ((Ledger.serve call).perform m.ledger).1 :: past)
        { m with ledger := ((Ledger.serve call).perform m.ledger).2 }
  | called {past : List Event} {m : Market} (r : Request) :
      Course start past m →
      Course start (.answered ⟨r, ((serve r).perform m).1⟩ :: past) ((serve r).perform m).2
  | retiered {past : List Event} {m : Market} (tiers : TierOracle) :
      Course start past m → Course start past { m with sale := { m.sale with tiers := tiers } }

variable {start : Market} {past : List Event}

theorem Course.reachable (h : start.Course past m) (hstart : start.sale.Reachable) : m.sale.Reachable := by
  induction h with
  | opened => exact hstart
  | used call _ ih => exact ih
  | called r _ ih => exact .called _ _ r ih
  | retiered tiers _ ih => exact .retiered tiers ih

/-- A sale keeps its currency and its address, and with them what is spent by a purchase. -/
theorem Course.spent_eq (h : start.Course past m) (hstart : start.sale.Reachable) (g : Grant) :
    Event.spent m.sale.config g = Event.spent start.sale.config g := by
  induction h with
  | opened => rfl
  | used call _ ih => exact ih
  | @called past m r hcourse ih =>
    have heffect := effect_serve (hcourse.reachable hstart).inStock r
    rw [← ih, heffect.posted.terms]
    rfl
  | retiered tiers _ ih => exact ih

theorem Course.covered {s : Sale} {log : List Record} (h : Course ⟨s, .empty, log⟩ past m)
    (hs : s.Reachable) (g : Grant) : Covered s.config g past (m.ledger.granted g) := by
  induction h with
  | opened => rfl
  | used call _ ih => exact ih.cons ((Ledger.effect_serve _ call).settles s.config g)
  | called r hcourse ih =>
    have hsettles := (effect_serve (hcourse.reachable hs).inStock r).settles g
    refine ih.cons ⟨hsettles.approved, ?_⟩
    rw [← hcourse.spent_eq hs g]
    exact hsettles.spent
  | retiered tiers _ ih => exact ih

/-- **Approvals bound spending.** However uses of the ledger, from an empty one on, and calls on a sale follow on each
other: what a spender may still move for an owner and the amounts of all transfers that the spender made for the owner
since the last approval, purchases included if the spender is the sale, come to the amount last approved. Hence a token
sale never charges a buyer more than that. -/
theorem Course.allowance_add_spent {s : Sale} (hs : s.Reachable) {log : List Record}
    (h : Course ⟨s, .empty, log⟩ past m) :
    (∀ g : Grant, (m.ledger.allowance g.token g.owner g.spender).toNat + spentSince s.config g past =
        (lastApproved g past).toNat) ∧
      ∀ token buyer, s.config.currency = .token token →
        chargedSince ⟨token, buyer, s.config.address⟩ past ≤
          (lastApproved ⟨token, buyer, s.config.address⟩ past).toNat := by
  refine ⟨h.covered hs, ?_⟩
  intro token buyer hcurrency
  have hcovered := h.covered hs ⟨token, buyer, s.config.address⟩
  have hcharged := chargedSince_le_spentSince past
    (g := ⟨token, buyer, s.config.address⟩) hcurrency rfl
  unfold Covered at hcovered
  omega

/-- What the second account lets the sale spend of the token that it sells for. -/
def buyerGrant : Grant := ⟨.truncate 9, .truncate 2, .truncate 1⟩

/-- An approval is used for one token and renewed, two more tokens are bought, and the sale moves one coin besides. -/
theorem allowance_add_spent_flatTokenSale :
    Sale.flatTokenSale.Reachable ∧ ∃ past m, Course ⟨Sale.flatTokenSale, .empty, []⟩ past m ∧
      (m.ledger.allowance (.truncate 9) (.truncate 2) (.truncate 1)).toNat = 1 ∧
      1 + spentSince Sale.flatTokenSale.config buyerGrant past = 8 ∧
      lastApproved buyerGrant past = .ofUInt64 8 ∧
      chargedSince buyerGrant past ≤ 8 := by
  have hs : Sale.flatTokenSale.Reachable := .deployed
    (show (Sale.deploy Sale.flatTokenSale.config Sale.flatPricing .none).1 = .ok Sale.flatTokenSale from rfl)
  have hopened : Course ⟨Sale.flatTokenSale, .empty, []⟩ [] ⟨Sale.flatTokenSale, .empty, []⟩ := .opened
  have hcourse := hopened
    |>.used (.credit (.token (.truncate 9)) (.truncate 2) (.ofUInt64 20))
    |>.used (.approve (.truncate 9) (.truncate 2) (.truncate 1) (.ofUInt64 4))
    |>.called (.mint ⟨.truncate 2, 0, 0⟩ ⟨1, 1, .ofUInt64 3⟩)
    |>.used (.approve (.truncate 9) (.truncate 2) (.truncate 1) (.ofUInt64 8))
    |>.called (.mint ⟨.truncate 2, 0, 0⟩ ⟨1, .ofUInt64 2, .ofUInt64 3⟩)
    |>.used (.transferFrom (.truncate 9) (.truncate 1) (.truncate 2) (.truncate 3) 1)
  obtain ⟨hspent, hcharged⟩ := hcourse.allowance_add_spent hs
  have hspent := hspent buyerGrant
  have hcharged := hcharged (.truncate 9) (.truncate 2) rfl
  refine ⟨hs, _, _, hcourse, ?_, ?_, ?_, ?_⟩
  · rfl
  · exact hspent
  · rfl
  · exact hcharged

end Market

end TokenSale
