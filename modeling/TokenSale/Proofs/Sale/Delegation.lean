import TokenSale.Proofs.Sale.Ledger

/-!
# Transfers on behalf of another account

A spender moves tokens of a giver. Such a transfer has all of its effect or none: it lowers the one allowance and moves
the amount between the two balances (`Ledger.Delegated`), or it leaves the ledger as it was. The allowance is checked
before the balance, so that it names the failure where both are short. The spender, the giver and the taker may be one
account or two; only a transfer to oneself is a case of its own, and it moves nothing.
-/

namespace TokenSale.Ledger

/-- All that a transfer on behalf of `giver` changes. -/
structure Delegated (l l' : Ledger) (token spender giver taker : Address) (amount : Word) : Prop where
  allowance : (l'.allowance token giver spender).toNat + amount.toNat = (l.allowance token giver spender).toNat
  taken : giver ≠ taker →
    (l'.balance (.token token) giver).toNat + amount.toNat = (l.balance (.token token) giver).toNat
  given : giver ≠ taker → (l'.balance (.token token) taker).toNat =
    min ((l.balance (.token token) taker).toNat + amount.toNat) (Word.size - 1)
  kept : giver = taker → l'.balance (.token token) giver = l.balance (.token token) giver
  allowances : ∀ token' owner' spender', (token', owner', spender') ≠ (token, giver, spender) →
    l'.allowance token' owner' spender' = l.allowance token' owner' spender'
  balances : ∀ currency account, (currency, account) ≠ (.token token, giver) →
    (currency, account) ≠ (.token token, taker) → l'.balance currency account = l.balance currency account

theorem delegated_moved {l : Ledger} {token spender giver taker : Address} {amount : Word}
    (hallowed : amount ≤ l.allowance token giver spender) (hheld : amount ≤ l.balance (.token token) giver) :
    l.Delegated ((l.moved (.token token) giver taker amount).approve token giver spender
      ((l.allowance token giver spender).satSub amount)) token spender giver taker amount where
  allowance := by
    rw [allowance_approve, if_pos rfl, Word.toNat_satSub]
    exact Nat.sub_add_cancel hallowed
  taken hne := by
    rw [balance_approve, balance_moved_giver hne, Word.toNat_satSub]
    exact Nat.sub_add_cancel hheld
  given hne := by
    rw [balance_approve, balance_moved_taker hne, Word.toNat_satAdd]
  kept heq := by
    subst heq
    rw [balance_approve, balance_moved_self hheld]
  allowances _ _ _ hne := by
    rw [allowance_approve, if_neg hne, allowance_moved]
  balances _ _ hgiver htaker := by
    rw [balance_approve, balance_moved_of_ne hgiver htaker]

/-- **A transfer on behalf of another account has its whole effect or none.** On any ledger it succeeds exactly if both
the allowance and the balance of the giver are at least the amount. Then the allowance falls by the amount, the balance of
the giver falls by it and that of the taker rises by it, up to the greatest word; a transfer to oneself leaves the balance
as it was, and no other balance or allowance changes. It is refused for the allowance if that is short and otherwise for
the balance, and then nothing changes. -/
theorem transferFrom_all_or_nothing (l : Ledger) (token spender giver taker : Address) (amount : Word) :
    let allowed := l.allowance token giver spender
    let held := l.balance (.token token) giver
    let r := (transferFrom token spender giver taker amount).perform l
    (r.1 = .ok () ↔ amount ≤ allowed ∧ amount ≤ held) ∧
      (allowed < amount → r.1 = .error (.insufficientAllowance giver spender allowed amount)) ∧
      (amount ≤ allowed → held < amount → r.1 = .error (.insufficientBalance giver held amount)) ∧
      (r.1 = .ok () → l.Delegated r.2 token spender giver taker amount) ∧
      ∀ e, r.1 = .error e → r.2 = l := by
  intro allowed held r
  have hr : r = _ := perform_transferFrom token spender giver taker amount l
  by_cases hallowed : amount ≤ allowed
  · have hnot : ¬ allowed < amount := Nat.not_lt.mpr hallowed
    rw [if_pos hallowed] at hr
    by_cases hheld : amount ≤ held
    · rw [if_pos hheld] at hr
      rw [hr]
      exact ⟨iff_of_true rfl ⟨hallowed, hheld⟩, fun h => absurd h hnot,
        fun _ h => absurd h (Nat.not_lt.mpr hheld), fun _ => delegated_moved hallowed hheld, nofun⟩
    · rw [if_neg hheld] at hr
      rw [hr]
      exact ⟨iff_of_false nofun fun h => hheld h.2, fun h => absurd h hnot, fun _ _ => rfl, nofun,
        fun _ _ => rfl⟩
  · rw [if_neg hallowed] at hr
    rw [hr]
    exact ⟨iff_of_false nofun fun h => hallowed h.1, fun _ => rfl, fun h => absurd h hallowed, nofun,
      fun _ _ => rfl⟩

/-- Who moves the greatest balance to itself, on an allowance from itself, has it still and uses up the allowance. -/
example :
    let l := (empty.credit (.token .zero) .zero .greatest).approve .zero .zero .zero .greatest
    let r := (transferFrom .zero .zero .zero .zero .greatest).perform l
    r.1 = .ok () ∧ r.2.balance (.token .zero) .zero = .greatest ∧ r.2.allowance .zero .zero .zero = 0 :=
  ⟨rfl, rfl, rfl⟩

end TokenSale.Ledger
