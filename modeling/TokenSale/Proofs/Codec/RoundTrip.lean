import Mathlib.Data.List.Basic
import TokenSale.Codec.Basic
import TokenSale.Theory.Numerals

/-!
# Reading back what was written

A codec reads a value back if it finds it at the front of any input that starts with the bytes written for it. Values
of a fixed width are always read back, compounds when their parts are; a list must not be longer than `maxLength`
besides. The bound is exact: no input at all is read as a longer list (`length_le_of_readable`), and what was written
for one is refused (`overlong_of_length`).
-/

namespace TokenSale.Codec

variable {α β : Type} {c : Codec α} {d : Codec β}

/-- A value that is read back as it was written, whatever follows it. -/
def ReadsBack (c : Codec α) (a : α) : Prop :=
  ∀ rest, c.decode (c.encode a ++ rest) = .ok (a, rest)

/-- A value that is refused for the length of a list in it. -/
def Overlong (c : Codec α) (a : α) : Prop :=
  ∀ rest, c.decode (c.encode a ++ rest) = .error .lengthOverflow

/-! ## Fixed widths -/

theorem takeBytes_append (bytes rest : List UInt8) :
    takeBytes bytes.length (bytes ++ rest) = .ok (bytes, rest) := by
  induction bytes with
  | nil => rfl
  | cons b bytes ih => rw [List.cons_append, List.length_cons, takeBytes, ih]

theorem readsBack_fixed {width : Nat} {toBytes : α → List UInt8} {ofBytes : List UInt8 → α} {a : α}
    (hlength : (toBytes a).length = width) (hback : ofBytes (toBytes a) = a) :
    (fixed width toBytes ofBytes).ReadsBack a := by
  intro rest
  subst hlength
  simp only [fixed, takeBytes_append, hback]

theorem readsBack_byte (b : UInt8) : byte.ReadsBack b := readsBack_fixed rfl rfl

theorem readsBack_uint64 (n : UInt64) : uint64.ReadsBack n := by
  apply readsBack_fixed
  · exact Bytes.length_littleEndian 8 _
  · have hn : n.toNat % 256 ^ 8 = n.toNat := Nat.mod_eq_of_lt n.toNat_lt
    rw [Bytes.ofLittleEndian_littleEndian, hn, UInt64.ofNat_toNat]

theorem readsBack_word (w : Word) : word.ReadsBack w := by
  apply readsBack_fixed
  · exact Bytes.length_littleEndian 32 _
  · have hw : w.toNat % 256 ^ 32 = w.toNat := Nat.mod_eq_of_lt w.toNat_lt
    apply Word.ext
    show Bytes.ofLittleEndian (Bytes.littleEndian 32 w.toNat) % Word.size = w.toNat
    rw [Bytes.ofLittleEndian_littleEndian, hw, Nat.mod_eq_of_lt w.toNat_lt]

theorem readsBack_address (a : Address) : address.ReadsBack a := by
  apply readsBack_fixed
  · rw [Address.toBytes, List.length_reverse, Bytes.length_littleEndian]
  · have ha : a.toNat % 256 ^ 20 = a.toNat := Nat.mod_eq_of_lt a.toNat_lt
    rw [Address.ofBytes, Address.toBytes, List.reverse_reverse, Bytes.ofLittleEndian_littleEndian, ha]
    exact Address.ext (Nat.mod_eq_of_lt a.toNat_lt)

theorem readsBack_hash (d : Digest) : hash.ReadsBack d := by
  apply readsBack_fixed
  · exact Vector.length_toList
  · have hbytes : (Vector.ofFn fun i : Fin 32 => d.bytes.toList.getD i.val 0) = d.bytes := by
      ext i hi
      simp
    exact congrArg Digest.mk hbytes

/-! ## Compounds -/

theorem readsBack_pair {a : α} {b : β} (ha : c.ReadsBack a) (hb : d.ReadsBack b) :
    (pair c d).ReadsBack (a, b) := by
  intro rest
  simp only [pair, List.append_assoc, ha _, hb _, bind, Except.bind, pure, Except.pure]

theorem decodeMany_flatMap {items : List α} (h : ∀ a ∈ items, c.ReadsBack a) (rest : List UInt8) :
    decodeMany c items.length (items.flatMap c.encode ++ rest) = .ok (items, rest) := by
  induction items with
  | nil => rfl
  | cons a items ih =>
    rw [List.forall_mem_cons] at h
    simp only [List.length_cons, List.flatMap_cons, List.append_assoc, decodeMany, h.1 _, ih h.2,
      bind, Except.bind, pure, Except.pure]

theorem overlong_pair {a : α} (ha : c.Overlong a) (b : β) : (pair c d).Overlong (a, b) := by
  intro rest
  simp only [pair, List.append_assoc, ha _, bind, Except.bind]

-- The first item that is overlong ends the reading; all items before it are read.
theorem decodeMany_of_overlong {items : List α} (h : ∀ a ∈ items, c.ReadsBack a ∨ c.Overlong a)
    (hsome : ∃ a ∈ items, c.Overlong a) (rest : List UInt8) :
    decodeMany c items.length (items.flatMap c.encode ++ rest) = .error .lengthOverflow := by
  induction items with
  | nil =>
    obtain ⟨a, ha, -⟩ := hsome
    cases ha
  | cons a items ih =>
    rw [List.forall_mem_cons] at h
    rw [List.exists_mem_cons_iff] at hsome
    simp only [List.length_cons, List.flatMap_cons, List.append_assoc, decodeMany, bind, Except.bind]
    rcases h.1 with hread | hlong
    · rcases hsome with hlong | hlater
      · rw [hlong]
      · rw [hread]
        simp only [ih h.2 hlater]
    · rw [hlong]

/-- The length that a list is written with, as it is read. -/
theorem toNat_length {n : Nat} (h : n < UInt64.size) : (UInt64.ofNat n).toNat = n := by
  rw [UInt64.toNat_ofNat']
  exact Nat.mod_eq_of_lt h

theorem decode_list_append {items : List α} (rest : List UInt8) :
    (list c).decode ((list c).encode items ++ rest) =
      if maxLength < (UInt64.ofNat items.length).toNat then .error .lengthOverflow
      else decodeMany c (UInt64.ofNat items.length).toNat (items.flatMap c.encode ++ rest) := by
  simp only [list, List.append_assoc, readsBack_uint64 _ _, bind, Except.bind]
  rfl

theorem readsBack_list {items : List α} (hlength : items.length ≤ maxLength)
    (h : ∀ a ∈ items, c.ReadsBack a) : (list c).ReadsBack items := by
  intro rest
  have hsmall : items.length < UInt64.size := Nat.lt_of_le_of_lt hlength (by decide)
  rw [decode_list_append, toNat_length hsmall, if_neg (Nat.not_lt.mpr hlength),
    decodeMany_flatMap h]

theorem overlong_of_length {items : List α} (hlong : maxLength < items.length)
    (hsmall : items.length < UInt64.size) : (list c).Overlong items := by
  intro rest
  rw [decode_list_append, toNat_length hsmall, if_pos hlong]

theorem overlong_of_mem {items : List α} (hlength : items.length ≤ maxLength)
    (h : ∀ a ∈ items, c.ReadsBack a ∨ c.Overlong a) (hsome : ∃ a ∈ items, c.Overlong a) :
    (list c).Overlong items := by
  intro rest
  have hsmall : items.length < UInt64.size := Nat.lt_of_le_of_lt hlength (by decide)
  rw [decode_list_append, toNat_length hsmall, if_neg (Nat.not_lt.mpr hlength),
    decodeMany_of_overlong h hsome]

theorem readsBack_array {n : Nat} {items : Vector α n} (h : ∀ a ∈ items.toList, c.ReadsBack a) :
    (array n c).ReadsBack items := by
  intro rest
  have hread := decodeMany_flatMap h rest
  rw [Vector.length_toList] at hread
  simp only [array, hread, bind, Except.bind, Vector.length_toList, dif_pos]
  rfl

/-! ## What can be read at all -/

/-- A value that some input is read as. -/
def Readable (c : Codec α) (a : α) : Prop := ∃ input rest, c.decode input = .ok (a, rest)

theorem readable_of_pair {a : α} {b : β} (h : (pair c d).Readable (a, b)) :
    c.Readable a ∧ d.Readable b := by
  obtain ⟨input, rest, h⟩ := h
  simp only [pair, bind, Except.bind] at h
  split at h
  · cases h
  · rename_i p hp
    split at h
    · cases h
    · rename_i q hq
      cases h
      exact ⟨⟨_, _, hp⟩, ⟨_, _, hq⟩⟩

theorem readable_of_decodeMany {n : Nat} {input rest : List UInt8} {items : List α}
    (h : decodeMany c n input = .ok (items, rest)) :
    items.length = n ∧ ∀ a ∈ items, c.Readable a := by
  induction n generalizing input items with
  | zero =>
    cases h
    exact ⟨rfl, List.forall_mem_nil _⟩
  | succ n ih =>
    simp only [decodeMany, bind, Except.bind] at h
    split at h
    · cases h
    · rename_i p hp
      split at h
      · cases h
      · rename_i q hq
        cases h
        obtain ⟨hlength, hitems⟩ := ih hq
        exact ⟨congrArg (· + 1) hlength, List.forall_mem_cons.mpr ⟨⟨_, _, hp⟩, hitems⟩⟩

/-- What is read as an array was read item by item. -/
theorem decodeMany_of_array {n : Nat} {input rest : List UInt8} {items : Vector α n}
    (h : (array n c).decode input = .ok (items, rest)) :
    decodeMany c n input = .ok (items.toList, rest) := by
  simp only [array, bind, Except.bind] at h
  split at h
  · cases h
  · rename_i p hp
    split at h
    · cases h
      exact hp
    · cases h

theorem length_le_of_readable {items : List α} (h : (list c).Readable items) :
    items.length ≤ maxLength ∧ ∀ a ∈ items, c.Readable a := by
  obtain ⟨input, rest, h⟩ := h
  simp only [list, bind, Except.bind] at h
  split at h
  · cases h
  · rename_i p hp
    split at h
    · cases h
    · rename_i hle
      obtain ⟨hlength, hitems⟩ := readable_of_decodeMany h
      exact ⟨hlength ▸ Nat.not_lt.mp hle, hitems⟩

theorem readable_of_array {n : Nat} {items : Vector α n} (h : (array n c).Readable items) :
    ∀ a ∈ items.toList, c.Readable a := by
  obtain ⟨input, rest, h⟩ := h
  exact (readable_of_decodeMany (decodeMany_of_array h)).2

end TokenSale.Codec
