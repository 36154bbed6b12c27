import TokenSale.Proofs.Address.Spelling

/-!
# The forms of an address

An address is written as a text, widened to a word and laid out as 20 bytes, and is the same address again when it is
read back: `ofText_text`. A word is narrowed to the address that its low 160 bits spell, which are the last 20 of its 32
bytes: `toNat_toWord_ofWord`, `toBytes_ofWord`. So two words are narrowed to one address exactly if they are equal modulo
`2 ^ 160`: `ofWord_eq_iff`.
-/

namespace TokenSale

namespace Hexadecimal

theorem exists_of_mem_digits {width n : Nat} {c : Char} (h : c ∈ digits width n) : ∃ d < 16, c = digitChar d := by
  induction width generalizing n with
  | zero => cases h
  | succ width ih =>
    rw [digits] at h
    rcases List.mem_append.mp h with h | h
    · exact ih h
    · exact ⟨n % 16, Nat.mod_lt _ (by decide), List.mem_singleton.mp h⟩

end Hexadecimal

namespace Bytes

/-- The first bytes of a number are those of a smaller width. -/
theorem take_littleEndian (width more n : Nat) : (littleEndian (width + more) n).take width = littleEndian width n := by
  induction width generalizing n with
  | zero => rfl
  | succ width ih => rw [Nat.succ_add, littleEndian, List.take_succ_cons, ih, littleEndian]

/-- Bytes keep only what there is room for. -/
theorem littleEndian_mod_pow (width n : Nat) : littleEndian width (n % 256 ^ width) = littleEndian width n := by
  have hback := littleEndian_mod (length_littleEndian width n)
  rwa [ofLittleEndian_littleEndian, Nat.mod_mod] at hback

end Bytes

/-- The 32 bytes of a word, the most significant first. -/
def Word.toBytes (w : Word) : List UInt8 := (Bytes.littleEndian 32 w.toNat).reverse

namespace Address

open Hexadecimal

/-! ## Texts -/

theorem digitChar_written {d : Nat} (h : d < 16) : digitChar d ∈ alphabet ∧ plain (digitChar d) = digitChar d := by
  have hall : ∀ d : Fin 16, digitChar d.val ∈ alphabet ∧ plain (digitChar d.val) = digitChar d.val := by decide
  exact hall ⟨d, h⟩

theorem isSpelled_chars (a : Address) : IsSpelled a.chars := by
  refine ⟨digits 40 a.toNat, rfl, length_digits 40 a.toNat, ?_⟩
  intro i c hc
  obtain ⟨d, hd, rfl⟩ := exists_of_mem_digits (List.mem_of_getElem? hc)
  exact Or.inl (digitChar_written hd).1

theorem map_plain_chars (a : Address) : a.chars.map plain = a.chars := by
  have hdigits : (digits 40 a.toNat).map plain = (digits 40 a.toNat).map id := by
    apply List.map_congr_left
    intro c hc
    obtain ⟨d, hd, rfl⟩ := exists_of_mem_digits hc
    exact (digitChar_written hd).2
  rw [List.map_id] at hdigits
  rw [chars, List.map_cons, List.map_cons, hdigits]
  rfl

theorem chars_injective : Function.Injective chars := by
  intro a b h
  have hsize : 16 ^ 40 = size := by decide
  have hdigits : digits 40 a.toNat = digits 40 b.toNat := List.tail_eq_of_cons_eq (List.tail_eq_of_cons_eq h)
  have hvalue := value?_digits 40 a.toNat
  rw [hdigits, value?_digits, hsize, Nat.mod_eq_of_lt a.toNat_lt, Nat.mod_eq_of_lt b.toNat_lt] at hvalue
  exact Address.ext (Option.some.inj hvalue).symm

/-- The text of an address reads back as the address. -/
theorem ofText_text (a : Address) : ofText a.text = .ok a := by
  obtain ⟨b, hb, hchars⟩ := exists_ofChars? a.isSpelled_chars
  rw [map_plain_chars] at hchars
  obtain rfl := chars_injective hchars
  rw [ofText, text, String.toList_ofList, hb]

/-! ## Words and bytes -/

theorem size_eq_bytes : size = 256 ^ 20 := by decide

/-- The word of an address is the number of its bytes. -/
theorem toNat_toWord (a : Address) : a.toWord.toNat = Bytes.ofLittleEndian a.toBytes.reverse := by
  rw [toBytes, List.reverse_reverse, Bytes.ofLittleEndian_littleEndian, ← size_eq_bytes]
  exact (Nat.mod_eq_of_lt a.toNat_lt).symm

theorem toNat_toWord_ofWord (w : Word) : (ofWord w).toWord.toNat = w.toNat % 2 ^ 160 := by
  rw [← size_eq]
  rfl

/-- The address of a word is its last 20 bytes. -/
theorem toBytes_ofWord (w : Word) : (ofWord w).toBytes = w.toBytes.drop 12 := by
  have hlow : Bytes.littleEndian 20 (w.toNat % size) = Bytes.littleEndian 20 w.toNat := by
    rw [size_eq_bytes, Bytes.littleEndian_mod_pow]
  calc (ofWord w).toBytes
    _ = (Bytes.littleEndian 20 w.toNat).reverse := congrArg List.reverse hlow
    _ = ((Bytes.littleEndian (20 + 12) w.toNat).take 20).reverse := by rw [Bytes.take_littleEndian]
    _ = w.toBytes.drop 12 := by rw [List.reverse_take, Bytes.length_littleEndian]; rfl

/-- Words name one address exactly if they are equal modulo `2 ^ 160`. -/
theorem ofWord_eq_iff {v w : Word} : ofWord v = ofWord w ↔ v.toNat % 2 ^ 160 = w.toNat % 2 ^ 160 := by
  rw [← size_eq]
  exact Address.ext_iff

end Address

end TokenSale
