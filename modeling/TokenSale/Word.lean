import TokenSale.Text.Decimal
import TokenSale.Text.Hexadecimal

/-!
# Words

The values that a script computes with: natural numbers below `2 ^ 256`. An operation whose exact result may
fall outside is either checked (`add?`, which then has no result) or saturating (`satAdd`, which stops at the
nearer end). Nothing wraps, except where the name says that high bits are dropped.
-/

namespace TokenSale

/-- The number of words, `2 ^ 256`. -/
abbrev Word.size : Nat := 0x1_00000000_00000000_00000000_00000000_00000000_00000000_00000000_00000000

/-- A natural number below `2 ^ 256`. -/
@[ext] structure Word where
  /-- The number. -/
  toNat : Nat
  toNat_lt : toNat < Word.size
deriving DecidableEq

namespace Word

instance : Zero Word := ⟨⟨0, by decide⟩⟩
instance : One Word := ⟨⟨1, by decide⟩⟩
instance : Inhabited Word := ⟨0⟩

def greatest : Word := ⟨size - 1, by decide⟩

@[simp] theorem toNat_zero : (0 : Word).toNat = 0 := rfl
@[simp] theorem toNat_one : (1 : Word).toNat = 1 := rfl

/-! ## Order -/

instance : LE Word := ⟨fun a b => a.toNat ≤ b.toNat⟩
instance : LT Word := ⟨fun a b => a.toNat < b.toNat⟩
instance (a b : Word) : Decidable (a ≤ b) := inferInstanceAs (Decidable (a.toNat ≤ b.toNat))
instance (a b : Word) : Decidable (a < b) := inferInstanceAs (Decidable (a.toNat < b.toNat))
instance : Min Word := minOfLe
instance : Max Word := maxOfLe

theorem le_def {a b : Word} : a ≤ b ↔ a.toNat ≤ b.toNat := Iff.rfl
theorem lt_def {a b : Word} : a < b ↔ a.toNat < b.toNat := Iff.rfl

@[simp] theorem toNat_min (a b : Word) : (Min.min a b).toNat = Min.min a.toNat b.toNat := by
  show (if a ≤ b then a else b).toNat = _
  simp only [le_def, Nat.min_def]
  split <;> rfl

@[simp] theorem toNat_max (a b : Word) : (Max.max a b).toNat = Max.max a.toNat b.toNat := by
  show (if a ≤ b then b else a).toNat = _
  simp only [le_def, Nat.max_def]
  split <;> rfl

/-! ## Words from numbers -/

/-- The word of a number, if the number is small enough. -/
def ofNat? (n : Nat) : Option Word := if h : n < size then some ⟨n, h⟩ else none

/-- The word nearest to a number. -/
def clamp (n : Nat) : Word := ⟨Min.min n (size - 1), by simp only [size]; omega⟩

/-- The word of a flag: one for true, zero for false. -/
def ofBool (b : Bool) : Word := if b then 1 else 0

def ofUInt8 (n : UInt8) : Word := ⟨n.toNat, Nat.lt_of_lt_of_le n.toNat_lt (by decide)⟩
def ofUInt16 (n : UInt16) : Word := ⟨n.toNat, Nat.lt_of_lt_of_le n.toNat_lt (by decide)⟩
def ofUInt32 (n : UInt32) : Word := ⟨n.toNat, Nat.lt_of_lt_of_le n.toNat_lt (by decide)⟩
def ofUInt64 (n : UInt64) : Word := ⟨n.toNat, Nat.lt_of_lt_of_le n.toNat_lt (by decide)⟩

/-- The low 64 bits. -/
def lowUInt64 (w : Word) : UInt64 := UInt64.ofNat w.toNat

@[simp] theorem toNat_clamp (n : Nat) : (clamp n).toNat = Min.min n (size - 1) := rfl
@[simp] theorem toNat_ofUInt16 (n : UInt16) : (ofUInt16 n).toNat = n.toNat := rfl
@[simp] theorem toNat_ofUInt64 (n : UInt64) : (ofUInt64 n).toNat = n.toNat := rfl
@[simp] theorem toNat_ofUInt32 (n : UInt32) : (ofUInt32 n).toNat = n.toNat := rfl

theorem ofNat?_eq_some_iff {n : Nat} {w : Word} : ofNat? n = some w ↔ w.toNat = n := by
  unfold ofNat?
  split
  · simp only [Option.some.injEq]
    exact ⟨fun h => h ▸ rfl, fun h => Word.ext h.symm⟩
  · rename_i h
    simp only [false_iff, reduceCtorEq]
    exact fun e => h (e ▸ w.toNat_lt)

theorem ofNat?_eq_none_iff {n : Nat} : ofNat? n = none ↔ size ≤ n := by
  unfold ofNat?
  split <;> simp <;> omega

@[simp] theorem ofNat?_toNat (w : Word) : ofNat? w.toNat = some w := ofNat?_eq_some_iff.2 rfl

/-! ## Arithmetic -/

/-- The sum, if it is a word. -/
def add? (a b : Word) : Option Word := ofNat? (a.toNat + b.toNat)

/-- The difference, if it is not negative. -/
def sub? (a b : Word) : Option Word := if b ≤ a then ofNat? (a.toNat - b.toNat) else none

/-- The product, if it is a word. -/
def mul? (a b : Word) : Option Word := ofNat? (a.toNat * b.toNat)

/-- The quotient rounded down, unless the divisor is zero. -/
def div? (a b : Word) : Option Word :=
  if b = 0 then none else ofNat? (a.toNat / b.toNat)

/-- The remainder, unless the divisor is zero. -/
def mod? (a b : Word) : Option Word :=
  if b = 0 then none else ofNat? (a.toNat % b.toNat)

/-- The power, if it is a word; `0 ^ 0` is one. A base above one overflows from the exponent 256 on. -/
def pow? (a b : Word) : Option Word :=
  if b = 0 then some 1
  else if a ≤ 1 then some a
  else if b.toNat < 256 then ofNat? (Nat.pow a.toNat b.toNat)
  else none

/-- The sum, or the greatest word if the sum is greater. -/
def satAdd (a b : Word) : Word := clamp (a.toNat + b.toNat)

/-- The difference, or zero if it is negative. -/
def satSub (a b : Word) : Word := clamp (a.toNat - b.toNat)

/-- The product, or the greatest word if the product is greater. -/
def satMul (a b : Word) : Word := clamp (a.toNat * b.toNat)

@[simp] theorem toNat_satAdd (a b : Word) :
    (a.satAdd b).toNat = Min.min (a.toNat + b.toNat) (size - 1) := rfl

@[simp] theorem toNat_satSub (a b : Word) : (a.satSub b).toNat = a.toNat - b.toNat := by
  have := a.toNat_lt
  simp only [satSub, toNat_clamp]
  omega

@[simp] theorem toNat_satMul (a b : Word) :
    (a.satMul b).toNat = Min.min (a.toNat * b.toNat) (size - 1) := rfl

theorem toNat_satAdd_of_lt {a b : Word} (h : a.toNat + b.toNat < size) : (a.satAdd b).toNat = a.toNat + b.toNat :=
  Nat.min_eq_left (Nat.le_sub_one_of_lt h)

theorem toNat_satMul_of_lt {a b : Word} (h : a.toNat * b.toNat < size) : (a.satMul b).toNat = a.toNat * b.toNat :=
  Nat.min_eq_left (Nat.le_sub_one_of_lt h)

theorem add?_of_lt {a b : Word} (h : a.toNat + b.toNat < size) : a.add? b = some (a.satAdd b) :=
  ofNat?_eq_some_iff.mpr (toNat_satAdd_of_lt h)

theorem mul?_of_lt {a b : Word} (h : a.toNat * b.toNat < size) : a.mul? b = some (a.satMul b) :=
  ofNat?_eq_some_iff.mpr (toNat_satMul_of_lt h)

theorem exists_div? (a : Word) {b : Word} (h : b ≠ 0) : ∃ q, a.div? b = some q ∧ q.toNat = a.toNat / b.toNat := by
  have hlt : a.toNat / b.toNat < size := Nat.lt_of_le_of_lt (Nat.div_le_self _ _) a.toNat_lt
  refine ⟨⟨a.toNat / b.toNat, hlt⟩, ?_, rfl⟩
  rw [div?, if_neg h, ofNat?, dif_pos hlt]

theorem exists_mod? (a : Word) {b : Word} (h : b ≠ 0) : ∃ r, a.mod? b = some r ∧ r.toNat = a.toNat % b.toNat := by
  have hlt : a.toNat % b.toNat < size := Nat.lt_of_le_of_lt (Nat.mod_le _ _) a.toNat_lt
  refine ⟨⟨a.toNat % b.toNat, hlt⟩, ?_, rfl⟩
  rw [mod?, if_neg h, ofNat?, dif_pos hlt]

/-- A quotient by a divisor other than zero is always a word. -/
theorem div?_eq_none_iff {a b : Word} : a.div? b = none ↔ b = 0 := by
  unfold div?
  split
  · simp_all
  · simp only [ofNat?_eq_none_iff]
    have := Nat.div_le_self a.toNat b.toNat
    have := a.toNat_lt
    constructor
    · omega
    · simp_all

theorem mod?_eq_none_iff {a b : Word} : a.mod? b = none ↔ b = 0 := by
  unfold mod?
  split
  · simp_all
  · simp only [ofNat?_eq_none_iff]
    have := Nat.mod_le a.toNat b.toNat
    have := a.toNat_lt
    constructor
    · omega
    · simp_all

/-! ## Text -/

instance : ToString Word := ⟨fun w => toString w.toNat⟩

/-- Reads a decimal numeral; the empty one is zero. -/
def ofDecimal? (cs : List Char) : Option Word := (Decimal.value? cs).bind ofNat?

/-- Reads a hexadecimal numeral of at most 64 digits, which may be introduced by `0x`; the empty one is
zero. -/
def ofHexadecimal? (cs : List Char) : Option Word :=
  let run := match cs with
    | '0' :: 'x' :: rest => rest
    | _ => cs
  if run.length ≤ 64 then (Hexadecimal.value? run).bind ofNat? else none

end Word

end TokenSale
