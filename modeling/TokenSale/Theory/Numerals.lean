import Mathlib.Algebra.Group.Nat.Defs
import TokenSale.Address

/-!
# Numerals and powers

What the sizes of the types are as powers, and what the numerals of a fixed width keep of a number; decimal numerals
keep all of it. The checked power of words, which leaves out the powers that are sure to be too great, is the checked
form of the exact power.
-/

namespace TokenSale

theorem Word.size_eq : Word.size = 2 ^ 256 := rfl

theorem Address.size_eq : Address.size = 2 ^ 160 := rfl

namespace Bytes

/-- Bytes denote a number below the power of their number. -/
theorem ofLittleEndian_lt (bytes : List UInt8) : ofLittleEndian bytes < 256 ^ bytes.length := by
  induction bytes with
  | nil => exact Nat.one_pos
  | cons b rest ih =>
    have := b.toNat_lt
    simp only [ofLittleEndian, List.length_cons, pow_succ]
    omega

/-- As many bytes as there are keep all of the number that they denote. -/
theorem littleEndian_mod {width : Nat} {bytes : List UInt8} (hlength : bytes.length = width) :
    littleEndian width (ofLittleEndian bytes % 256 ^ width) = bytes := by
  subst hlength
  rw [Nat.mod_eq_of_lt (ofLittleEndian_lt bytes)]
  exact littleEndian_ofLittleEndian bytes

/-- Written bytes read back as the number they keep. -/
theorem ofLittleEndian_littleEndian (width n : Nat) :
    ofLittleEndian (littleEndian width n) = n % 256 ^ width := by
  induction width generalizing n with
  | zero => exact (Nat.mod_one n).symm
  | succ width ih =>
    rw [littleEndian, ofLittleEndian, ih, pow_succ', Nat.mod_mul]
    simp

end Bytes

namespace Hexadecimal

/-- Written digits read back as the number they keep. -/
theorem value?_digits (width n : Nat) : value? (digits width n) = some (n % 16 ^ width) := by
  induction width generalizing n with
  | zero => simp [digits, Nat.mod_one]
  | succ width ih =>
    rw [digits, value?_concat, ih, digit?_digitChar (Nat.mod_lt _ (by decide))]
    simp only [Option.bind_some, Option.map_some, Option.some.injEq]
    rw [pow_succ', Nat.mod_mul]
    omega

end Hexadecimal

namespace Decimal

theorem digit?_digitChar {n : Nat} (h : n < 10) : digit? (Nat.digitChar n) = some n := by
  have : ∀ m : Fin 10, digit? (Nat.digitChar m.val) = some m.val := by decide
  exact this ⟨n, h⟩

/-- Written digits read back as their number. -/
theorem value?_digits (n : Nat) : value? (digits n) = some n := by
  induction n using Nat.strongRecOn with
  | ind n ih =>
    rw [digits, Nat.toDigits_eq_if (by decide)]
    split
    · next h =>
      rw [← List.nil_append [n.digitChar], value?_concat, value?_nil, Option.bind_some,
        digit?_digitChar h, Option.map_some, Nat.mul_zero, Nat.zero_add]
    · next h =>
      have hlt : n / 10 < n := by omega
      have hn : 10 * (n / 10) + n % 10 = n := Nat.div_add_mod n 10
      rw [value?_concat, ← digits, ih (n / 10) hlt, digit?_digitChar (Nat.mod_lt _ (by decide))]
      simp only [Option.bind_some, Option.map_some, hn]

theorem isDigit_of_mem_digits {n : Nat} {c : Char} (h : c ∈ digits n) : c.isDigit = true :=
  Nat.isDigit_of_mem_toDigits (by decide) (by decide) h

theorem digits_ne_nil (n : Nat) : digits n ≠ [] := Nat.toDigits_ne_nil

theorem toList_toString (n : Nat) : (toString n).toList = digits n := by
  rw [Nat.toString_eq_repr, Nat.repr_eq_ofList_toDigits, String.toList_ofList, digits]

theorem natural?_digits {bound n : Nat} (h : n < bound) : natural? bound (digits n) = some n := by
  unfold natural?
  dsimp only
  split
  · next rest heq =>
    have hplus : '+' ∈ digits n := by
      rw [heq]
      exact List.mem_cons_self
    cases isDigit_of_mem_digits hplus
  · rw [if_neg (digits_ne_nil n), value?_digits, Option.filter_some, if_pos (decide_eq_true h)]

end Decimal

namespace Word

theorem ofDecimal?_digits (w : Word) : ofDecimal? (Decimal.digits w.toNat) = some w := by
  rw [ofDecimal?, Decimal.value?_digits, Option.bind_some, ofNat?_toNat]

/-- `pow?` is the checked power. -/
theorem pow?_eq (a b : Word) : a.pow? b = ofNat? (a.toNat ^ b.toNat) := by
  unfold pow?
  split
  · next h =>
    subst h
    exact (ofNat?_eq_some_iff.2 (pow_zero a.toNat).symm).symm
  · next hb =>
    have hb' : b.toNat ≠ 0 := fun h => hb (Word.ext h)
    split
    · next ha =>
      have ha' : a.toNat ≤ 1 := ha
      refine (ofNat?_eq_some_iff.2 ?_).symm
      rcases Nat.le_one_iff_eq_zero_or_eq_one.1 ha' with h | h
      · rw [h]; exact (Nat.zero_pow (Nat.pos_of_ne_zero hb')).symm
      · rw [h, one_pow]
    · next ha =>
      have ha' : 2 ≤ a.toNat := by
        have : ¬ a.toNat ≤ 1 := ha
        omega
      split
      · rfl
      · next h =>
        refine (ofNat?_eq_none_iff.2 ?_).symm
        have hb256 : 256 ≤ b.toNat := Nat.not_lt.1 h
        calc size = 2 ^ 256 := size_eq
          _ ≤ 2 ^ b.toNat := Nat.pow_le_pow_right Nat.two_pos hb256
          _ ≤ a.toNat ^ b.toNat := Nat.pow_le_pow_left ha' _

end Word

end TokenSale
