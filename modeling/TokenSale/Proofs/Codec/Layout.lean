import TokenSale.Codec.Layout
import TokenSale.Proofs.Codec.Canonical

/-!
# The laws of every layout

What `RoundTrip` and `Canonical` say of one codec at a time is put together here, by induction on layouts. A value is
short if no list in it, at any depth, is longer than `maxLength`. The short values of a layout are those that are read
back (`readsBack_iff_short`), which are also those that are read at all (`readable_iff_short`). Every layout is
canonical. So the inputs that are read to their end as a value are one, if it is short, and none otherwise
(`decodeAll_eq_ok_iff_encode`).
-/

namespace TokenSale

theorem Codec.decodeAll_eq_ok_iff {α : Type} {c : Codec α} {input : List UInt8} {a : α} :
    c.decodeAll input = .ok a ↔ c.decode input = .ok (a, []) := by
  rcases hread : c.decode input with e | ⟨found, rest⟩
  · simp [decodeAll, hread, bind, Except.bind]
  · by_cases hrest : rest = [] <;>
      simp [decodeAll, hread, hrest, bind, Except.bind, pure, Except.pure]

namespace Layout

open Codec

/-- No list in the value is longer than is read. -/
def Short : (l : Layout) → l.Value → Prop
  | byte, _ | uint64, _ | word, _ | address, _ | hash, _ => True
  | list item, items => items.length ≤ maxLength ∧ ∀ v ∈ items, item.Short v
  | array _ item, items => ∀ v ∈ items.toList, item.Short v

instance decidableShort : (l : Layout) → (v : l.Value) → Decidable (l.Short v)
  | byte, _ | uint64, _ | word, _ | address, _ | hash, _ => inferInstanceAs (Decidable True)
  | list item, items =>
    have := decidableShort item
    inferInstanceAs (Decidable (items.length ≤ maxLength ∧ ∀ v ∈ items, item.Short v))
  | array _ item, items =>
    have := decidableShort item
    inferInstanceAs (Decidable (∀ v ∈ items.toList, item.Short v))

/-! ## The three inductions -/

theorem readsBack_of_short {l : Layout} {v : l.Value} (h : l.Short v) : l.codec.ReadsBack v := by
  induction l with
  | byte => exact readsBack_byte v
  | uint64 => exact readsBack_uint64 v
  | word => exact readsBack_word v
  | address => exact readsBack_address v
  | hash => exact readsBack_hash v
  | list item ih => exact readsBack_list h.1 fun a ha => ih (h.2 a ha)
  | array length item ih => exact readsBack_array fun a ha => ih (h a ha)

theorem short_of_readable {l : Layout} {v : l.Value} (h : l.codec.Readable v) : l.Short v := by
  induction l with
  | byte | uint64 | word | address | hash => trivial
  | list item ih =>
    obtain ⟨hlength, hitems⟩ := length_le_of_readable h
    exact ⟨hlength, fun a ha => ih (hitems a ha)⟩
  | array length item ih => exact fun a ha => ih (readable_of_array h a ha)

theorem canonical_codec (l : Layout) : l.codec.Canonical := by
  induction l with
  | byte => exact canonical_byte
  | uint64 => exact canonical_uint64
  | word => exact canonical_word
  | address => exact canonical_address
  | hash => exact canonical_hash
  | list item ih => exact canonical_list ih
  | array length item ih => exact canonical_array ih

/-! ## What is read -/

/-- The length of its lists is all that keeps a value from being read back. -/
theorem readsBack_iff_short {l : Layout} {v : l.Value} : l.codec.ReadsBack v ↔ l.Short v :=
  ⟨fun h => short_of_readable ⟨_, _, h []⟩, readsBack_of_short⟩

theorem readable_iff_short {l : Layout} {v : l.Value} : l.codec.Readable v ↔ l.Short v :=
  ⟨short_of_readable, fun h => ⟨_, _, readsBack_of_short h []⟩⟩

/-- Of all inputs, only what is written for a short value is read to its end as that value. -/
theorem decodeAll_eq_ok_iff_encode {l : Layout} {v : l.Value} {input : List UInt8} :
    l.codec.decodeAll input = .ok v ↔ l.Short v ∧ input = l.codec.encode v := by
  rw [decodeAll_eq_ok_iff]
  constructor
  · intro h
    refine ⟨short_of_readable ⟨_, _, h⟩, ?_⟩
    rw [l.canonical_codec _ _ _ h, List.append_nil]
  · rintro ⟨hshort, rfl⟩
    have h := readsBack_of_short hshort []
    rwa [List.append_nil] at h

/-- Whatever the layout, what is written for a short value is read back as it and leaves what follows; whatever is read
was written; and an input is read to its end as the value that it is read as with nothing left. -/
theorem codec_laws (l : Layout) :
    (∀ v, l.Short v → ∀ rest, l.codec.decode (l.codec.encode v ++ rest) = .ok (v, rest)) ∧
      (∀ input v rest, l.codec.decode input = .ok (v, rest) → input = l.codec.encode v ++ rest) ∧
      ∀ input v, l.codec.decodeAll input = .ok v ↔ l.codec.decode input = .ok (v, []) :=
  ⟨fun _ h => readsBack_of_short h, l.canonical_codec, fun _ _ => decodeAll_eq_ok_iff⟩

/-- Pairs of byte strings. -/
abbrev bytePairs : Layout := .list (.array 2 (.list .byte))

abbrev onePair : bytePairs.Value := [#v[[7], []]]

abbrev onePairBytes : List UInt8 :=
  [1, 0, 0, 0, 0, 0, 0, 0] ++ ([1, 0, 0, 0, 0, 0, 0, 0] ++ [7]) ++ [0, 0, 0, 0, 0, 0, 0, 0]

theorem codec_laws_bytePairs :
    bytePairs.Short onePair ∧
      bytePairs.codec.decode (bytePairs.codec.encode onePair ++ [9]) = .ok (onePair, [9]) ∧
      bytePairs.codec.decode (onePairBytes ++ [9]) = .ok (onePair, [9]) ∧
      onePairBytes ++ [9] = bytePairs.codec.encode onePair ++ [9] ∧
      bytePairs.codec.decodeAll onePairBytes = .ok onePair := by
  obtain ⟨hback, hcanonical, hall⟩ := codec_laws bytePairs
  have hshort : bytePairs.Short onePair := by decide
  have hread : bytePairs.codec.decode (onePairBytes ++ [9]) = .ok (onePair, [9]) := rfl
  exact ⟨hshort, hback _ hshort _, hread, hcanonical _ _ _ hread, (hall _ _).mpr rfl⟩

end Layout

end TokenSale
