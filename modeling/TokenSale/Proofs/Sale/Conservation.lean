import Mathlib.Algebra.Order.BigOperators.Group.Finset
import Mathlib.Algebra.Order.Ring.Nat
import Mathlib.Data.Fintype.EquivFin
import TokenSale.Proofs.Sale.Ledger

/-!
# Transfers and the money there is

The money in a currency is the sum of all balances in it. Setting a balance changes this sum by the new balance less the
old one (`total_setBalance`), and everything else follows from what an operation sets. A transfer takes an amount from
one balance and adds it to another, but the second stops at the greatest word: what passes it is gone
(`Ledger.total_moved`). That never happens while there is less than `2 ^ 256` of the currency, since no two balances
come to more than all of them do. So if less than that is ever credited, the money there is stays what was credited,
through any uses of the ledger (`Ledger.total_after`).
-/

namespace TokenSale

noncomputable instance : Fintype Address :=
  Fintype.ofInjective (fun a : Address => (⟨a.toNat, a.toNat_lt⟩ : Fin Address.size)) fun _ _ h =>
    Address.ext (Fin.mk.inj h)

/-- What a transfer is to move. -/
structure Move where
  currency : Currency
  giver : Address
  taker : Address
  amount : Word

/-- The move that a use of the ledger is to make, if it is a transfer. -/
def LedgerCall.move? : LedgerCall → Option Move
  | .credit _ _ _ => none
  | .approve _ _ _ _ => none
  | .transfer currency giver taker amount => some ⟨currency, giver, taker, amount⟩
  | .transferFrom token _ giver taker amount => some ⟨.token token, giver, taker, amount⟩

/-- What a use of the ledger adds to the money in a currency. -/
def LedgerCall.credited (currency : Currency) : LedgerCall → Nat
  | .credit currency' _ amount => if currency' = currency then amount.toNat else 0
  | _ => 0

theorem LedgerCall.credited_of_move? {call : LedgerCall} {move : Move} (h : call.move? = some move)
    (currency : Currency) : call.credited currency = 0 := by
  cases call with
  | credit currency' account amount => cases h
  | approve | transfer | transferFrom => rfl

namespace Ledger

/-! ## All balances -/

/-- The sum of all balances in a currency. -/
noncomputable def total (l : Ledger) (currency : Currency) : Nat :=
  ∑ account, (l.balance currency account).toNat

variable {l l' : Ledger} {currency currency' : Currency} {giver taker account : Address} {amount : Word}

theorem total_congr (h : ∀ account, l'.balance currency account = l.balance currency account) :
    l'.total currency = l.total currency :=
  Finset.sum_congr rfl fun account _ => congrArg Word.toNat (h account)

theorem total_setBalance (l : Ledger) (currency : Currency) (account : Address) (w : Word) :
    (l.setBalance currency account w).total currency + (l.balance currency account).toNat =
      l.total currency + w.toNat := by
  have hrest : ∀ other ∈ Finset.univ.erase account,
      ((l.setBalance currency account w).balance currency other).toNat =
        (l.balance currency other).toNat := by
    intro other hother
    have hne : (currency, other) ≠ (currency, account) := fun heq =>
      Finset.ne_of_mem_erase hother (Prod.mk.inj heq).2
    rw [balance_setBalance, if_neg hne]
  rw [total, total, ← Finset.add_sum_erase _ _ (Finset.mem_univ account),
    ← Finset.add_sum_erase _ (fun other => (l.balance currency other).toNat) (Finset.mem_univ account),
    Finset.sum_congr rfl hrest, balance_setBalance, if_pos rfl]
  omega

theorem total_setBalance_of_ne (hne : currency' ≠ currency) (w : Word) :
    (l.setBalance currency account w).total currency' = l.total currency' := by
  apply total_congr
  intro other
  rw [balance_setBalance, if_neg fun heq => hne (Prod.mk.inj heq).1]

@[simp] theorem total_approve (l : Ledger) (token owner spender : Address) (amount : Word)
    (currency : Currency) : (l.approve token owner spender amount).total currency = l.total currency := rfl

theorem total_empty (currency : Currency) : empty.total currency = 0 :=
  Finset.sum_eq_zero fun _ _ => rfl

theorem balance_le_total (l : Ledger) (currency : Currency) (account : Address) :
    (l.balance currency account).toNat ≤ l.total currency :=
  Finset.single_le_sum (f := fun other => (l.balance currency other).toNat)
    (fun _ _ => Nat.zero_le _) (Finset.mem_univ account)

theorem balance_add_balance_le_total (l : Ledger) (currency : Currency) (hne : giver ≠ taker) :
    (l.balance currency giver).toNat + (l.balance currency taker).toNat ≤ l.total currency := by
  have hmem : taker ∈ Finset.univ.erase giver := Finset.mem_erase.mpr ⟨hne.symm, Finset.mem_univ taker⟩
  rw [total, ← Finset.add_sum_erase _ _ (Finset.mem_univ giver)]
  exact Nat.add_le_add_left
    (Finset.single_le_sum (f := fun other => (l.balance currency other).toNat)
      (fun _ _ => Nat.zero_le _) hmem) _

/-! ## Transfers -/

/-- What a move would put on the balance of the taker beyond the greatest word. A move to oneself puts nothing there. -/
def surplus (l : Ledger) (move : Move) : Nat :=
  if move.giver = move.taker then 0
  else (l.balance move.currency move.taker).toNat + move.amount.toNat - (Word.size - 1)

/-- A move lowers the sum of all balances by its surplus. -/
theorem total_moved (hle : amount ≤ l.balance currency giver) :
    (l.moved currency giver taker amount).total currency + l.surplus ⟨currency, giver, taker, amount⟩ =
      l.total currency := by
  unfold surplus
  dsimp only
  split
  · rename_i heq
    subst heq
    apply total_congr
    intro other
    by_cases hother : other = giver
    · rw [hother, balance_moved_self hle]
    · have hne : (currency, other) ≠ (currency, giver) := fun h => hother (Prod.mk.inj h).2
      rw [balance_moved_of_ne hne hne]
  · rename_i hne
    have hkept : (currency, taker) ≠ (currency, giver) := fun h => hne (Prod.mk.inj h).2.symm
    have htaken := total_setBalance l currency giver ((l.balance currency giver).satSub amount)
    have hgiven := total_setBalance
      (l.setBalance currency giver ((l.balance currency giver).satSub amount)) currency taker
      ((l.balance currency taker).satAdd amount)
    rw [balance_setBalance, if_neg hkept, Word.toNat_satAdd] at hgiven
    rw [Word.toNat_satSub] at htaken
    rw [Word.le_def] at hle
    rw [moved, credit, balance_setBalance, if_neg hkept]
    have hlt := (l.balance currency taker).toNat_lt
    omega

theorem total_moved_of_ne (hne : currency' ≠ currency) :
    (l.moved currency giver taker amount).total currency' = l.total currency' := by
  rw [moved, credit, total_setBalance_of_ne hne, total_setBalance_of_ne hne]

theorem surplus_eq_zero {move : Move} (hle : move.amount ≤ l.balance move.currency move.giver)
    (htotal : l.total move.currency < Word.size) : l.surplus move = 0 := by
  unfold surplus
  split
  · rfl
  · rename_i hne
    have hboth := balance_add_balance_le_total l move.currency hne
    rw [Word.le_def] at hle
    omega

/-- What a transfer on `l` leaves of the money there is. -/
structure Conserved (l : Ledger) (move : Move) (result : Except PaymentError Unit) (l' : Ledger) : Prop where
  others : ∀ currency, currency ≠ move.currency → l'.total currency = l.total currency
  refused : ∀ e, result = .error e → l' = l
  moved : result = .ok () → l'.total move.currency + l.surplus move = l.total move.currency
  of_lt : l.total move.currency < Word.size → l'.total move.currency = l.total move.currency

theorem Conserved.total_eq {move : Move} {result : Except PaymentError Unit} (h : l.Conserved move result l')
    (hlt : l.total currency < Word.size) : l'.total currency = l.total currency := by
  by_cases heq : currency = move.currency
  · subst heq
    exact h.of_lt hlt
  · exact h.others currency heq

theorem conserved_of_balance {move : Move} (hle : move.amount ≤ l.balance move.currency move.giver)
    (h : ∀ currency account, l'.balance currency account =
      (l.moved move.currency move.giver move.taker move.amount).balance currency account) :
    l.Conserved move (.ok ()) l' := by
  have hmoved : l'.total move.currency + l.surplus move = l.total move.currency := by
    rw [total_congr (h move.currency)]
    exact total_moved hle
  refine ⟨?_, nofun, fun _ => hmoved, ?_⟩
  · intro currency hne
    rw [total_congr (h currency), total_moved_of_ne hne]
  · intro hlt
    rw [surplus_eq_zero hle hlt, Nat.add_zero] at hmoved
    exact hmoved

theorem Effect.conserved {call : LedgerCall} {result : Except PaymentError Unit} {move : Move}
    (h : l.Effect call result l') (hmove : call.move? = some move) : l.Conserved move result l' := by
  cases h with
  | refused => exact ⟨fun _ _ => rfl, fun _ _ => rfl, nofun, fun _ => rfl⟩
  | credited currency account amount => cases hmove
  | approved token owner spender amount => cases hmove
  | transferred hle =>
    cases hmove
    exact conserved_of_balance hle fun _ _ => rfl
  | transferredFrom _ hle =>
    cases hmove
    exact conserved_of_balance hle fun _ _ => rfl

/-- **Transfers conserve money, up to the greatest balance.** On any ledger, a transfer, whether on behalf of its giver
or of a spender, leaves the sum of all balances in every currency as it was, whether it succeeds or is refused and also
when it goes back to its giver, with one exception: one that would take the balance of its taker beyond the greatest
word loses what would be beyond, and exactly that. While there is less than `2 ^ 256` of a currency, nothing is lost. -/
theorem conserved_of_transfer (l : Ledger) {call : LedgerCall} {move : Move} (h : call.move? = some move) :
    l.Conserved move ((serve call).perform l).1 ((serve call).perform l).2 :=
  (effect_serve l call).conserved h

/-- An account with as much money as there can be, and another with six coins. -/
def brimLedger : Ledger :=
  (Ledger.empty.credit .native (.truncate 1) .greatest).credit .native (.truncate 2) (.ofUInt64 6)

/-- The six coins go to the account that can hold no more. -/
def brimTransfer : LedgerCall := .transfer .native (.truncate 2) (.truncate 1) (.ofUInt64 6)

theorem conserved_of_transfer_brimTransfer :
    brimTransfer.move? = some ⟨.native, .truncate 2, .truncate 1, .ofUInt64 6⟩ ∧
      ((serve brimTransfer).perform brimLedger).1 = .ok () ∧
      ((serve brimTransfer).perform brimLedger).2.total .native + 6 = brimLedger.total .native := by
  have hmove : brimTransfer.move? = some ⟨.native, .truncate 2, .truncate 1, .ofUInt64 6⟩ := rfl
  have hok : ((serve brimTransfer).perform brimLedger).1 = .ok () := by rfl
  have hsurplus : brimLedger.surplus ⟨.native, .truncate 2, .truncate 1, .ofUInt64 6⟩ = 6 := by
    decide +kernel
  have hlost := (conserved_of_transfer brimLedger hmove).moved hok
  rw [hsurplus] at hlost
  exact ⟨hmove, hok, hlost⟩

/-- A transfer that goes through and after which there is less money than before. -/
theorem brimTransfer_loses :
    ((serve brimTransfer).perform brimLedger).1 = .ok () ∧
      ((serve brimTransfer).perform brimLedger).2.total .native ≠ brimLedger.total .native := by
  have hle : Word.ofUInt64 6 ≤ brimLedger.balance .native (.truncate 2) := by decide +kernel
  have hsurplus : brimLedger.surplus ⟨.native, .truncate 2, .truncate 1, .ofUInt64 6⟩ = 6 := by
    decide +kernel
  have hlost : (brimLedger.moved .native (.truncate 2) (.truncate 1) (.ofUInt64 6)).total .native +
      brimLedger.surplus ⟨.native, .truncate 2, .truncate 1, .ofUInt64 6⟩ = brimLedger.total .native :=
    total_moved hle
  rw [hsurplus] at hlost
  rw [brimTransfer, serve, perform_transfer, if_pos hle]
  refine ⟨rfl, ?_⟩
  intro hsame
  dsimp only at hsame
  omega

/-! ## Any uses of the ledger -/

theorem total_credit (hfit : l.total currency + amount.toNat < Word.size) :
    (l.credit currency account amount).total currency = l.total currency + amount.toNat := by
  have hsum := total_setBalance l currency account ((l.balance currency account).satAdd amount)
  have hle := balance_le_total l currency account
  rw [Word.toNat_satAdd] at hsum
  rw [credit]
  omega

theorem total_serve {call : LedgerCall} (hfit : l.total currency + call.credited currency < Word.size) :
    ((serve call).perform l).2.total currency = l.total currency + call.credited currency := by
  cases hmove : call.move? with
  | some move =>
    rw [LedgerCall.credited_of_move? hmove] at hfit ⊢
    exact ((effect_serve l call).conserved hmove).total_eq hfit
  | none =>
    cases call with
    | credit currency' account amount =>
      show (l.credit currency' account amount).total currency = _
      by_cases heq : currency' = currency
      · subst heq
        rw [LedgerCall.credited, if_pos rfl] at hfit ⊢
        exact total_credit hfit
      · rw [LedgerCall.credited, if_neg heq, credit, total_setBalance_of_ne (Ne.symm heq), Nat.add_zero]
    | approve token owner spender amount => exact total_approve l token owner spender amount currency
    | transfer currency' giver taker amount => cases hmove
    | transferFrom token spender giver taker amount => cases hmove

/-- The ledger after uses of it, one after the other. -/
def after (l : Ledger) (calls : List LedgerCall) : Ledger :=
  calls.foldl (fun l call => ((serve call).perform l).2) l

/-- As long as it fits a word, all that is credited stays, wherever it is moved. -/
theorem total_after (calls : List LedgerCall)
    (hfit : l.total currency + (calls.map (LedgerCall.credited currency)).sum < Word.size) :
    (l.after calls).total currency = l.total currency + (calls.map (LedgerCall.credited currency)).sum := by
  induction calls generalizing l with
  | nil => rfl
  | cons call calls ih =>
    rw [List.map_cons, List.sum_cons, ← Nat.add_assoc] at hfit ⊢
    have hserve := total_serve (Nat.lt_of_le_of_lt (Nat.le_add_right _ _) hfit)
    rw [← hserve] at hfit ⊢
    exact ih hfit

theorem total_after_empty (calls : List LedgerCall)
    (hfit : (calls.map (LedgerCall.credited currency)).sum < Word.size) :
    (empty.after calls).total currency = (calls.map (LedgerCall.credited currency)).sum := by
  have hempty := total_empty currency
  rw [total_after calls (by rwa [hempty, Nat.zero_add]), hempty, Nat.zero_add]

end Ledger

end TokenSale
