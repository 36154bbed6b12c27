import TokenSale.Sale.Ledger
import TokenSale.Theory.Numerals

/-!
# What the ledger does

Each operation of the ledger either moves its amount or is refused, and the amounts decide which. A refused
operation leaves the ledger as it was, which for `transferFrom` is so because the allowance is lowered last.

* `perform_debit`, `perform_transfer`, `perform_transferFrom`: what each operation does to a ledger.
* `balance_moved_giver`, `balance_moved_taker`, `balance_moved_of_ne`: what moving an amount does to balances.
  Between two accounts the giver loses all of it, and the taker gains it up to the greatest word.
* `effect_serve`: what any use of the ledger comes to.
-/

namespace TokenSale

theorem Word.sub?_of_le {a b : Word} (h : b ≤ a) : a.sub? b = some (a.satSub b) := by
  rw [sub?, if_pos h]
  refine ofNat?_eq_some_iff.mpr ?_
  rw [toNat_satSub]

theorem Word.sub?_of_lt {a b : Word} (h : a < b) : a.sub? b = none := by
  have hle : ¬ b ≤ a := Nat.not_le.mpr h
  rw [sub?, if_neg hle]

theorem Word.le_satAdd (a b : Word) : a ≤ a.satAdd b := by
  have hlt := a.toNat_lt
  rw [le_def, toNat_satAdd]
  omega

theorem Word.satAdd_le_satAdd {a b : Word} (h : a ≤ b) (c : Word) : a.satAdd c ≤ b.satAdd c := by
  rw [le_def] at h ⊢
  rw [toNat_satAdd, toNat_satAdd]
  omega

namespace Ledger

/-- The ledger after an amount has been moved. -/
def moved (l : Ledger) (currency : Currency) (giver taker : Address) (amount : Word) : Ledger :=
  (l.setBalance currency giver ((l.balance currency giver).satSub amount)).credit currency taker amount

/-! ## Balances and allowances -/

theorem balance_setBalance (l : Ledger) (currency currency' : Currency) (account account' : Address)
    (w : Word) :
    (l.setBalance currency account w).balance currency' account' =
      if (currency', account') = (currency, account) then w else l.balance currency' account' :=
  Table.getD_set l.balances (currency, account) (currency', account') w 0

theorem allowance_approve (l : Ledger) (token token' owner owner' spender spender' : Address)
    (amount : Word) :
    (l.approve token owner spender amount).allowance token' owner' spender' =
      if (token', owner', spender') = (token, owner, spender) then amount
      else l.allowance token' owner' spender' :=
  Table.getD_set l.allowances (token, owner, spender) (token', owner', spender') amount 0

@[simp] theorem balance_approve (l : Ledger) (token owner spender account : Address) (amount : Word)
    (currency : Currency) :
    (l.approve token owner spender amount).balance currency account = l.balance currency account := rfl

@[simp] theorem allowance_moved (l : Ledger) (currency : Currency)
    (giver taker token owner spender : Address) (amount : Word) :
    (l.moved currency giver taker amount).allowance token owner spender =
      l.allowance token owner spender := rfl

section Moved

variable {l : Ledger} {currency currency' : Currency} {giver taker account : Address} {amount : Word}

theorem balance_moved_of_ne (hgiver : (currency', account) ≠ (currency, giver))
    (htaker : (currency', account) ≠ (currency, taker)) :
    (l.moved currency giver taker amount).balance currency' account = l.balance currency' account := by
  rw [moved, credit, balance_setBalance, if_neg htaker, balance_setBalance, if_neg hgiver]

theorem balance_moved_giver (hne : giver ≠ taker) :
    (l.moved currency giver taker amount).balance currency giver =
      (l.balance currency giver).satSub amount := by
  have htaker : (currency, giver) ≠ (currency, taker) := fun h => hne (congrArg Prod.snd h)
  rw [moved, credit, balance_setBalance, if_neg htaker, balance_setBalance, if_pos rfl]

theorem balance_moved_taker (hne : giver ≠ taker) :
    (l.moved currency giver taker amount).balance currency taker =
      (l.balance currency taker).satAdd amount := by
  have hgiver : (currency, taker) ≠ (currency, giver) := fun h => hne (congrArg Prod.snd h).symm
  rw [moved, credit, balance_setBalance, if_pos rfl, balance_setBalance, if_neg hgiver]

/-- What an account moves to itself it has still. -/
theorem balance_moved_self (hle : amount ≤ l.balance currency account) :
    (l.moved currency account account amount).balance currency account =
      l.balance currency account := by
  have hlt := (l.balance currency account).toNat_lt
  rw [Word.le_def] at hle
  rw [moved, credit, balance_setBalance, if_pos rfl, balance_setBalance, if_pos rfl]
  ext
  rw [Word.toNat_satAdd, Word.toNat_satSub]
  omega

/-- Moving an amount takes from no account but the giver, and takes nothing if the amount is zero. -/
theorem le_balance_moved (hle : amount ≤ l.balance currency giver)
    (h : (currency', account) = (currency, giver) → amount = 0) :
    l.balance currency' account ≤ (l.moved currency giver taker amount).balance currency' account := by
  by_cases hgiver : (currency', account) = (currency, giver)
  · obtain ⟨rfl, rfl⟩ := Prod.mk.inj hgiver
    by_cases htaker : account = taker
    · subst htaker
      rw [balance_moved_self hle]
      exact Nat.le_refl _
    · rw [balance_moved_giver htaker, h rfl, Word.le_def, Word.toNat_satSub]
      exact Nat.le_refl _
  · by_cases htaker : (currency', account) = (currency, taker)
    · obtain ⟨rfl, rfl⟩ := Prod.mk.inj htaker
      have hne : giver ≠ account := fun heq => hgiver (by rw [heq])
      rw [balance_moved_taker hne]
      exact Word.le_satAdd _ _
    · rw [balance_moved_of_ne hgiver htaker]
      exact Nat.le_refl _

end Moved

/-! ## Operations -/

theorem perform_debit (currency : Currency) (account : Address) (amount : Word) (l : Ledger) :
    (debit currency account amount).perform l =
      if amount ≤ l.balance currency account then
        (.ok (), l.setBalance currency account ((l.balance currency account).satSub amount))
      else (.error (.insufficientBalance account (l.balance currency account) amount), l) := by
  rw [debit, Action.perform_bind_of_ok (Action.perform_get l)]
  by_cases hle : amount ≤ l.balance currency account
  · simp only [Word.sub?_of_le hle, if_pos hle]
    rfl
  · simp only [Word.sub?_of_lt (Nat.not_le.mp hle), if_neg hle]
    rfl

theorem perform_transfer (currency : Currency) (giver taker : Address) (amount : Word) (l : Ledger) :
    (transfer currency giver taker amount).perform l =
      if amount ≤ l.balance currency giver then (.ok (), l.moved currency giver taker amount)
      else (.error (.insufficientBalance giver (l.balance currency giver) amount), l) := by
  have hdebit := perform_debit currency giver amount l
  rw [transfer]
  by_cases hle : amount ≤ l.balance currency giver
  · rw [if_pos hle] at hdebit ⊢
    rw [Action.perform_bind_of_ok hdebit]
    rfl
  · rw [if_neg hle] at hdebit ⊢
    rw [Action.perform_bind_of_error hdebit]

theorem perform_transferFrom (token spender giver taker : Address) (amount : Word) (l : Ledger) :
    (transferFrom token spender giver taker amount).perform l =
      if amount ≤ l.allowance token giver spender then
        if amount ≤ l.balance (.token token) giver then
          (.ok (), (l.moved (.token token) giver taker amount).approve token giver spender
            ((l.allowance token giver spender).satSub amount))
        else (.error (.insufficientBalance giver (l.balance (.token token) giver) amount), l)
      else
        (.error (.insufficientAllowance giver spender (l.allowance token giver spender) amount), l) := by
  have htransfer := perform_transfer (.token token) giver taker amount l
  rw [transferFrom, Action.perform_bind_of_ok (Action.perform_get l)]
  by_cases hallowed : amount ≤ l.allowance token giver spender
  · rw [if_pos hallowed]
    simp only [Word.sub?_of_le hallowed]
    by_cases hle : amount ≤ l.balance (.token token) giver
    · rw [if_pos hle] at htransfer ⊢
      rw [Action.perform_bind_of_ok htransfer]
      rfl
    · rw [if_neg hle] at htransfer ⊢
      rw [Action.perform_bind_of_error htransfer]
  · rw [if_neg hallowed]
    simp only [Word.sub?_of_lt (Nat.not_le.mp hallowed)]
    rfl

end Ledger

/-! ## Uses of the ledger -/

/-- A use of a ledger, by anyone. -/
inductive LedgerCall
  | credit (currency : Currency) (account : Address) (amount : Word)
  | approve (token owner spender : Address) (amount : Word)
  | transfer (currency : Currency) (giver taker : Address) (amount : Word)
  | transferFrom (token spender giver taker : Address) (amount : Word)

namespace Ledger

def serve : LedgerCall → Action Ledger PaymentError Unit
  | .credit currency account amount => modify (·.credit currency account amount)
  | .approve token owner spender amount => modify (·.approve token owner spender amount)
  | .transfer currency giver taker amount => transfer currency giver taker amount
  | .transferFrom token spender giver taker amount => transferFrom token spender giver taker amount

/-- What a use of the ledger comes to: the result, and the ledger that is left. A refusal leaves it as it was. -/
inductive Effect (l : Ledger) : LedgerCall → Except PaymentError Unit → Ledger → Prop
  | refused {call : LedgerCall} {e : PaymentError} : Effect l call (.error e) l
  | credited (currency : Currency) (account : Address) (amount : Word) :
      Effect l (.credit currency account amount) (.ok ()) (l.credit currency account amount)
  | approved (token owner spender : Address) (amount : Word) :
      Effect l (.approve token owner spender amount) (.ok ()) (l.approve token owner spender amount)
  | transferred {currency : Currency} {giver taker : Address} {amount : Word} :
      amount ≤ l.balance currency giver →
      Effect l (.transfer currency giver taker amount) (.ok ()) (l.moved currency giver taker amount)
  | transferredFrom {token spender giver taker : Address} {amount : Word} :
      amount ≤ l.allowance token giver spender → amount ≤ l.balance (.token token) giver →
      Effect l (.transferFrom token spender giver taker amount) (.ok ())
        ((l.moved (.token token) giver taker amount).approve token giver spender
          ((l.allowance token giver spender).satSub amount))

theorem effect_serve (l : Ledger) (call : LedgerCall) :
    l.Effect call ((serve call).perform l).1 ((serve call).perform l).2 := by
  cases call with
  | credit currency account amount => exact .credited currency account amount
  | approve token owner spender amount => exact .approved token owner spender amount
  | transfer currency giver taker amount =>
    rw [serve, perform_transfer]
    split
    · rename_i hle
      exact .transferred hle
    · exact .refused
  | transferFrom token spender giver taker amount =>
    rw [serve, perform_transferFrom]
    split
    · rename_i hallowed
      split
      · rename_i hle
        exact .transferredFrom hallowed hle
      · exact .refused
    · exact .refused

end Ledger

end TokenSale
