import TokenSale.Proofs.Codec.RoundTrip

/-!
# Nothing is read but what was written

A codec is canonical if it reads a value from no other bytes than those that it writes for it. A codec of a fixed width
is, as soon as any bytes of that width are those of the value they are read as. A compound is, if its parts are; of a
list this takes in the length that stands before it.
-/

namespace TokenSale.Codec

variable {α β : Type} {c : Codec α} {d : Codec β}

/-- Whatever is read was written, up to where the reading stopped. -/
def Canonical (c : Codec α) : Prop :=
  ∀ input a rest, c.decode input = .ok (a, rest) → input = c.encode a ++ rest

/-! ## Fixed widths -/

theorem takeBytes_eq_ok {n : Nat} {input bytes rest : List UInt8}
    (h : takeBytes n input = .ok (bytes, rest)) : bytes.length = n ∧ input = bytes ++ rest := by
  induction n generalizing input bytes with
  | zero =>
    cases h
    exact ⟨rfl, rfl⟩
  | succ n ih =>
    cases input with
    | nil => cases h
    | cons b input =>
      rw [takeBytes] at h
      split at h
      · rename_i taken rest' htake
        cases h
        obtain ⟨hlength, hinput⟩ := ih htake
        exact ⟨congrArg (· + 1) hlength, congrArg (b :: ·) hinput⟩
      · cases h

theorem canonical_fixed {width : Nat} {toBytes : α → List UInt8} {ofBytes : List UInt8 → α}
    (hback : ∀ bytes, bytes.length = width → toBytes (ofBytes bytes) = bytes) :
    (fixed width toBytes ofBytes).Canonical := by
  intro input a rest h
  simp only [fixed] at h
  split at h
  · rename_i bytes rest' htake
    cases h
    obtain ⟨hlength, hinput⟩ := takeBytes_eq_ok htake
    show input = toBytes (ofBytes bytes) ++ rest
    rw [hback bytes hlength]
    exact hinput
  · cases h

theorem canonical_byte : byte.Canonical := by
  apply canonical_fixed
  intro bytes hlength
  obtain ⟨b, rfl⟩ := List.length_eq_one_iff.mp hlength
  rfl

theorem canonical_uint64 : uint64.Canonical := by
  apply canonical_fixed
  intro bytes hlength
  rw [UInt64.toNat_ofNat']
  exact Bytes.littleEndian_mod hlength

theorem canonical_word : word.Canonical := by
  apply canonical_fixed
  intro bytes hlength
  show Bytes.littleEndian 32 (Bytes.ofLittleEndian bytes % Word.size) = bytes
  exact Bytes.littleEndian_mod hlength

theorem canonical_address : address.Canonical := by
  apply canonical_fixed
  intro bytes hlength
  show (Bytes.littleEndian 20 (Bytes.ofLittleEndian bytes.reverse % Address.size)).reverse = bytes
  have hback : Bytes.littleEndian 20 (Bytes.ofLittleEndian bytes.reverse % Address.size) = bytes.reverse :=
    Bytes.littleEndian_mod (List.length_reverse.trans hlength)
  rw [hback, List.reverse_reverse]

theorem canonical_hash : hash.Canonical := by
  apply canonical_fixed
  intro bytes hlength
  show (Vector.ofFn fun i : Fin 32 => bytes.getD i.val 0).toList = bytes
  apply List.ext_getElem
  · rw [Vector.length_toList, hlength]
  · intro i hi hi'
    simp [hi']

/-! ## Compounds -/

theorem canonical_pair (hc : c.Canonical) (hd : d.Canonical) : (pair c d).Canonical := by
  intro input p rest h
  simp only [pair, bind, Except.bind] at h
  split at h
  · cases h
  rename_i first hfirst
  split at h
  · cases h
  rename_i second hsecond
  cases h
  have hinput := hc _ _ _ hfirst
  have hrest := hd _ _ _ hsecond
  rw [hrest, ← List.append_assoc] at hinput
  exact hinput

theorem eq_flatMap_of_decodeMany (hc : c.Canonical) {n : Nat} {input rest : List UInt8} {items : List α}
    (h : decodeMany c n input = .ok (items, rest)) : input = items.flatMap c.encode ++ rest := by
  induction n generalizing input items with
  | zero =>
    cases h
    rfl
  | succ n ih =>
    simp only [decodeMany, bind, Except.bind] at h
    split at h
    · cases h
    rename_i first hfirst
    split at h
    · cases h
    rename_i more hmore
    cases h
    have hinput := hc _ _ _ hfirst
    rw [ih hmore, ← List.append_assoc] at hinput
    exact hinput

-- The length that was read is that of the items, so it is also the length that would be written.
theorem canonical_list (hc : c.Canonical) : (list c).Canonical := by
  intro input items rest h
  simp only [list, bind, Except.bind] at h
  split at h
  · cases h
  rename_i length hlength
  split at h
  · cases h
  have hcount := (readable_of_decodeMany h).1
  have hitems := eq_flatMap_of_decodeMany hc h
  have hinput := canonical_uint64 _ _ _ hlength
  show input = uint64.encode (UInt64.ofNat items.length) ++ items.flatMap c.encode ++ rest
  rw [hcount, UInt64.ofNat_toNat, List.append_assoc, ← hitems]
  exact hinput

theorem canonical_array {n : Nat} (hc : c.Canonical) : (array n c).Canonical := by
  intro input items rest h
  exact eq_flatMap_of_decodeMany hc (decodeMany_of_array h)

end TokenSale.Codec
