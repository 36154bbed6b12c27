import TokenSale.Proofs.Sale.Calls

/-!
# Royalties are exact

The royalty on a price is a part of it in ten-thousandths, rounded down. `Sale.royalty?` takes the part of the quotient
and of the remainder apart, and has no answer if one of its operations leaves the words. None does: the rate of a sale is
never above the whole (`Reachable.admitted`), so both parts together make up the exact royalty (`div_mul_add_mod_mul_div`),
which is no more than the price. The main statement is `Sale.Reachable.royalty_exact`.
-/

namespace TokenSale

/-! ## Parts of a number -/

section Parts

variable {p rate whole : Nat}

/-- The part of a number is that of its quotient and that of its remainder. -/
theorem div_mul_add_mod_mul_div (hwhole : 0 < whole) :
    p / whole * rate + p % whole * rate / whole = p * rate / whole := by
  calc p / whole * rate + p % whole * rate / whole
      = (whole * (p / whole * rate) + p % whole * rate) / whole := (Nat.mul_add_div hwhole _ _).symm
    _ = p * rate / whole := by rw [← Nat.mul_assoc, ← Nat.add_mul, Nat.div_add_mod]

theorem mul_div_le_of_le (hrate : rate ≤ whole) : p * rate / whole ≤ p := by
  apply Nat.div_le_of_le_mul
  rw [Nat.mul_comm whole]
  exact Nat.mul_le_mul_left p hrate

end Parts

namespace Sale

/-! ## The amount -/

/-- At a rate up to the whole every operation has a result, and together they make up the exact part of the price. -/
theorem exists_royalty_of_rate_le {s : Sale} (hrate : s.config.royaltyBps ≤ Config.maxRoyaltyBps) (price : Word) :
    ∃ amount, s.royalty? price = some (s.config.recipient, amount) ∧
      amount.toNat = price.toNat * s.config.royaltyBps.toNat / Config.maxRoyaltyBps.toNat := by
  have hwhole : Word.ofUInt16 Config.maxRoyaltyBps ≠ 0 := by decide
  obtain ⟨quotient, hdiv, hquotient⟩ := price.exists_div? hwhole
  obtain ⟨remainder, hmod, hremainder⟩ := price.exists_mod? hwhole
  -- The remainder is below the whole, and so small that its product with any rate is a word.
  have hscaled : remainder.toNat * (Word.ofUInt16 s.config.royaltyBps).toNat < Word.size := by
    rw [hremainder]
    exact Nat.lt_of_lt_of_le (Nat.mul_lt_mul'' (Nat.mod_lt _ (by decide)) s.config.royaltyBps.toNat_lt) (by decide)
  obtain ⟨ofRemainder, hdivScaled, hofRemainder⟩ :=
    (remainder.satMul (.ofUInt16 s.config.royaltyBps)).exists_div? hwhole
  rw [Word.toNat_satMul_of_lt hscaled] at hofRemainder
  -- The two parts make up the exact royalty, which is no more than the price: so both are words, and their sum is.
  have hexact : quotient.toNat * (Word.ofUInt16 s.config.royaltyBps).toNat + ofRemainder.toNat =
      price.toNat * s.config.royaltyBps.toNat / Config.maxRoyaltyBps.toNat := by
    rw [hofRemainder, hquotient, hremainder]
    exact div_mul_add_mod_mul_div (by decide)
  have hfits : quotient.toNat * (Word.ofUInt16 s.config.royaltyBps).toNat + ofRemainder.toNat < Word.size := by
    rw [hexact]
    exact Nat.lt_of_le_of_lt (mul_div_le_of_le (UInt16.le_iff_toNat_le.mp hrate)) price.toNat_lt
  have hofQuotient := Nat.lt_of_le_of_lt (Nat.le_add_right _ _) hfits
  rw [← Word.toNat_satMul_of_lt hofQuotient] at hexact hfits
  refine ⟨(quotient.satMul (.ofUInt16 s.config.royaltyBps)).satAdd ofRemainder, ?_, ?_⟩
  · simp only [royalty?, hdiv, hmod, Word.mul?_of_lt hofQuotient, Word.mul?_of_lt hscaled, hdivScaled,
      Word.add?_of_lt hfits, Option.bind_eq_bind, Option.bind_some, Option.pure_def]
  · rw [Word.toNat_satAdd_of_lt hfits]
    exact hexact

/-- **Royalties are exact.** On every sale and at every price there is an answer, so none of the operations on the way
leaves the words: the recipient of the sale, and the exact part of the price rounded down, which is no more than the
price. -/
theorem Reachable.royalty_exact {s : Sale} (hs : s.Reachable) (price : Word) :
    ∃ amount, s.royalty? price = some (s.config.recipient, amount) ∧
      amount.toNat = price.toNat * s.config.royaltyBps.toNat / 10000 ∧ amount ≤ price := by
  obtain ⟨amount, hroyalty, hexact⟩ := exists_royalty_of_rate_le hs.admitted.royaltyBps_le price
  refine ⟨amount, hroyalty, hexact, ?_⟩
  rw [Word.le_def, hexact]
  exact mul_div_le_of_le (UInt16.le_iff_toNat_le.mp hs.admitted.royaltyBps_le)

/-- A fortieth of the greatest price there is, whose product with the rate is no word. -/
theorem royalty_exact_of_greatest :
    ∃ s : Sale, s.Reachable ∧ s.config.royaltyBps = 250 ∧ Word.greatest.mul? (.ofUInt16 250) = none ∧
      ∃ amount, s.royalty? .greatest = some (s.config.recipient, amount) ∧
        amount.toNat = (Word.size - 1) * 250 / 10000 ∧ amount ≤ .greatest := by
  have hs : Reachable ⟨{ flatConfig with royaltyBps := 250 }, flatPricing, .empty, .none, 0, 0⟩ :=
    .deployed (show (deploy { flatConfig with royaltyBps := 250 } flatPricing .none).1 = .ok _ from rfl)
  obtain ⟨amount, hroyalty, hexact, hle⟩ := hs.royalty_exact .greatest
  exact ⟨_, hs, rfl, by decide, amount, hroyalty, hexact, hle⟩

end Sale

end TokenSale
