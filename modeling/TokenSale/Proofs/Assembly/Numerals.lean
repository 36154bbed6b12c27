import TokenSale.Assembly.Line
import TokenSale.Proofs.Text.Numerals

/-!
# Numeric tokens

A constant is documented as decimal digits, or `0x` or `0X` and hexadecimal digits, that denote a word; an operand that
is a number is documented as decimal digits that denote a byte. What is read differs (`numerals_exact`): a hexadecimal
constant may say `0x` twice and has at most 64 digits, however many of them are leading zeros, and an operand may carry
a plus sign. The empty text, which no token is, reads as the constant zero.
-/

namespace TokenSale

namespace OperandKind

/-- The kinds whose operands are numbers without names. -/
def numeric : List OperandKind := [constant, stackIndex, contextIndex, count, tier]

theorem named?_of_numeric {k : OperandKind} (h : k ∈ numeric) (token : String) : k.named? token = none := by
  cases k with
  | slot => exact absurd h (by decide)
  | comparator => exact absurd h (by decide)
  | _ => rfl

theorem ofNat_eq_iff {n : Nat} (h : n < 256) {operand : UInt8} : UInt8.ofNat n = operand ↔ n = operand.toNat := by
  constructor
  · rintro rfl
    rw [UInt8.toNat_ofNat', Nat.mod_eq_of_lt h]
  · rintro rfl
    exact UInt8.ofNat_toNat

theorem parse?_of_numeric {k : OperandKind} (h : k ∈ numeric) {token : String} {operand : UInt8} :
    k.parse? token = some operand ↔ Decimal.natural? 256 token.toList = some operand.toNat := by
  rw [parse?, named?_of_numeric h, Option.none_or, Option.map_eq_some_iff]
  constructor
  · rintro ⟨n, hn, hoperand⟩
    obtain ⟨-, -, -, -, hlt⟩ := Decimal.natural?_eq_some_iff.mp hn
    rw [hn, (ofNat_eq_iff hlt).mp hoperand]
  · intro hn
    exact ⟨operand.toNat, hn, UInt8.ofNat_toNat⟩

end OperandKind

namespace Assembly

/-- The documented constants. -/
def IsDocumentedConstant (token : List Char) (n : Nat) : Prop :=
  (token ≠ [] ∧ Decimal.Denotes token n) ∨
    ∃ x run, (x = 'x' ∨ x = 'X') ∧ token = '0' :: x :: run ∧ run ≠ [] ∧ Hexadecimal.Denotes run n

/-- The documented numeric operands. -/
def IsDocumentedOperand (token : List Char) (n : Nat) : Prop := token ≠ [] ∧ Decimal.Denotes token n

/-- The constants that are read. -/
inductive IsConstant : List Char → Nat → Prop
  | decimal {run : List Char} {n : Nat} : Decimal.Denotes run n → IsConstant run n
  | hexadecimal {x : Char} {run : List Char} {n : Nat} :
      x = 'x' ∨ x = 'X' → run ≠ [] → run.length ≤ 64 → Hexadecimal.Denotes run n →
      IsConstant ('0' :: x :: run) n
  /-- The hexadecimal digits are introduced a second time. -/
  | introducedTwice {x : Char} {run : List Char} {n : Nat} :
      x = 'x' ∨ x = 'X' → run.length ≤ 64 → Hexadecimal.Denotes run n →
      IsConstant ('0' :: x :: '0' :: 'x' :: run) n

/-- The numeric operands that are read. -/
inductive IsOperand : List Char → Nat → Prop
  | plain {run : List Char} {n : Nat} : run ≠ [] → Decimal.Denotes run n → IsOperand run n
  | signed {run : List Char} {n : Nat} : run ≠ [] → Decimal.Denotes run n → IsOperand ('+' :: run) n

/-- What is read after `0x` or `0X`. -/
theorem introduced_eq_some_iff {x : Char} (hx : x = 'x' ∨ x = 'X') {run : List Char} {w : Word} :
    (if run = [] then none else Word.ofHexadecimal? run) = some w ↔ IsConstant ('0' :: x :: run) w.toNat := by
  constructor
  · intro h
    split at h
    · cases h
    · next hne =>
      obtain ⟨digits, rfl | rfl, hlength, hdenotes⟩ := Word.ofHexadecimal?_eq_some_iff.mp h
      · exact .hexadecimal hx hne hlength hdenotes
      · exact .introducedTwice hx hlength hdenotes
  · generalize htoken : '0' :: x :: run = token
    intro h
    cases h with
    | decimal hdenotes =>
      subst htoken
      obtain ⟨d, hd⟩ := hdenotes.exists_digit? (List.mem_cons_of_mem '0' List.mem_cons_self)
      rcases hx with rfl | rfl
      · cases hd
      · cases hd
    | hexadecimal _ hne hlength hdenotes =>
      cases htoken
      rw [if_neg hne]
      exact Word.ofHexadecimal?_eq_some_iff.mpr ⟨run, Or.inl rfl, hlength, hdenotes⟩
    | introducedTwice _ hlength hdenotes =>
      cases htoken
      rw [if_neg (List.cons_ne_nil _ _)]
      exact Word.ofHexadecimal?_eq_some_iff.mpr ⟨_, Or.inr rfl, hlength, hdenotes⟩

theorem constant?_eq_some_iff {token : String} {w : Word} :
    constant? token = some w ↔ IsConstant token.toList w.toNat := by
  unfold constant?
  split
  · next run htoken =>
    rw [htoken]
    exact introduced_eq_some_iff (Or.inl rfl)
  · next run htoken =>
    rw [htoken]
    exact introduced_eq_some_iff (Or.inr rfl)
  · next hlower hupper =>
    rw [Word.ofDecimal?_eq_some_iff]
    constructor
    · exact IsConstant.decimal
    · intro h
      generalize htoken : token.toList = cs at h hlower hupper
      cases h with
      | decimal hdenotes => exact hdenotes
      | hexadecimal hx _ _ _ =>
        rcases hx with rfl | rfl
        · exact absurd rfl (hlower _)
        · exact absurd rfl (hupper _)
      | introducedTwice hx _ _ =>
        rcases hx with rfl | rfl
        · exact absurd rfl (hlower _)
        · exact absurd rfl (hupper _)

theorem natural?_eq_some_iff_isOperand {cs : List Char} {operand : UInt8} :
    Decimal.natural? 256 cs = some operand.toNat ↔ IsOperand cs operand.toNat := by
  rw [Decimal.natural?_eq_some_iff]
  constructor
  · rintro ⟨run, rfl | rfl, hne, hdenotes, -⟩
    · exact .plain hne hdenotes
    · exact .signed hne hdenotes
  · intro h
    cases h with
    | plain hne hdenotes => exact ⟨cs, Or.inl rfl, hne, hdenotes, operand.toNat_lt⟩
    | signed hne hdenotes => exact ⟨_, Or.inr rfl, hne, hdenotes, operand.toNat_lt⟩

/-- **The numeric tokens.** A token is read as a constant, or as an operand of a kind without names, exactly when it is
one of those that the number denotes. -/
theorem numerals_exact (token : String) :
    (∀ w : Word, constant? token = some w ↔ IsConstant token.toList w.toNat) ∧
      ∀ k ∈ OperandKind.numeric, ∀ operand : UInt8,
        k.parse? token = some operand ↔ IsOperand token.toList operand.toNat := by
  constructor
  · intro w
    exact constant?_eq_some_iff
  · intro k hk operand
    rw [OperandKind.parse?_of_numeric hk, natural?_eq_some_iff_isOperand]

/-- A byte of a count, with leading zeros, and a constant in capitals. -/
theorem numerals_exact_paddedByte :
    OperandKind.count.parse? "0255" = some 255 ∧ constant? "0XFF" = some (Word.ofUInt8 255) := by
  have hcount : OperandKind.count ∈ OperandKind.numeric := by decide
  have hoperand : IsOperand "0255".toList (255 : UInt8).toNat := .plain (by decide) (by decide)
  have hconstant : IsConstant "0XFF".toList (Word.ofUInt8 255).toNat :=
    .hexadecimal (Or.inr rfl) (by decide) (by decide) (by decide)
  exact ⟨((numerals_exact "0255").2 .count hcount 255).mpr hoperand,
    ((numerals_exact "0XFF").1 (Word.ofUInt8 255)).mpr hconstant⟩

/-- Sixty-five digits that denote one. -/
def paddedOne : String := "0x00000000000000000000000000000000000000000000000000000000000000001"

/-- A constant that is introduced twice and an operand with a plus sign are read without being documented, and a
documented constant is refused for its leading zeros. -/
theorem numerals_differ :
    (constant? "0x0x10" = some (Word.ofUInt8 16) ∧ ¬ IsDocumentedConstant "0x0x10".toList 16) ∧
      (OperandKind.count.parse? "+5" = some 5 ∧ ¬ IsDocumentedOperand "+5".toList 5) ∧
      (constant? paddedOne = none ∧ IsDocumentedConstant paddedOne.toList 1) := by
  refine ⟨⟨by decide, ?_⟩, ⟨by decide, ?_⟩, by decide, ?_⟩
  · rintro (⟨-, hdecimal⟩ | ⟨x, run, -, htoken, -, hdenotes⟩)
    · exact absurd hdecimal (by decide)
    · have hrun : run = "0x10".toList := (List.cons.inj (List.cons.inj htoken).2).2.symm
      subst hrun
      exact absurd hdenotes (by decide)
  · rintro ⟨-, hdecimal⟩
    exact absurd hdecimal (by decide)
  · exact Or.inr ⟨'x', paddedOne.toList.drop 2, Or.inl rfl, by decide, by decide, by decide⟩

end Assembly

end TokenSale
