import TokenSale.Sale.Registry

/-!
# What the registry does

The two operations of the registry as functions of the registry they find. Either operation leaves a registry that
it refuses to change as it was.
-/

namespace TokenSale

theorem toNat_add_of_lt {a b : UInt64} (h : a.toNat + b.toNat < UInt64.size) :
    (a + b).toNat = a.toNat + b.toNat := by
  rw [UInt64.toNat_add]
  exact Nat.mod_eq_of_lt h

namespace Registry

theorem toNat_firstId_add {r : Registry} (h : 1 + r.totalMinted.toNat < UInt64.size) :
    (firstId + r.totalMinted).toNat = 1 + r.totalMinted.toNat :=
  toNat_add_of_lt h

theorem perform_mint (account : Address) (quantity : UInt64) (r : Registry) :
    (mint account quantity).perform r =
      let first := firstId + r.totalMinted
      if first.toNat + quantity.toNat < UInt64.size then
        (.ok ⟨first, first + quantity⟩, r.addBatch account quantity)
      else (.error (.idsExhausted quantity), r) := by
  rw [mint, Action.perform_bind_of_ok (Action.perform_get r)]
  dsimp only
  split
  · rfl
  · rfl

theorem perform_burn (caller : Address) (id : UInt64) (r : Registry) :
    (burn caller id).perform r =
      match r.owner id with
      | .error e => (.error e, r)
      | .ok account =>
        if account = caller then (.ok (), r.removeToken caller id)
        else (.error (.notOwner caller id), r) := by
  rw [burn, Action.perform_bind_of_ok (Action.perform_get r)]
  cases r.owner id with
  | error e => rfl
  | ok account =>
    dsimp only
    split
    · rfl
    · rfl

end Registry

end TokenSale
