import TokenSale.Proofs.Codec.RoundTrip
import TokenSale.Script.Binary

/-!
# Which scripts survive their binary form

Every script can be written, but a list of more than `Codec.maxLength` items is not read. So a script is read back
from its binary form if and only if neither its sources nor the bytes of one of them are more than that
(`ofBytes_toBytes_eq_ok_iff`). The constants are never too many. What is written for the other scripts is refused for
its length (`ofBytes_toBytes_of_overlong`).
-/

namespace TokenSale.Script

theorem toBytes_eq_append (s : Script) : s.toBytes = magic ++ version ++ parts.encode (s.sources, s.constants) := rfl

/-- What follows the magic and the version decides about the rest. -/
theorem ofBytes_append (body : List UInt8) :
    ofBytes (magic ++ version ++ body) =
      match parts.decode body with
      | .error e => .error (.binary (.decode e))
      | .ok ((sources, constants), rest) =>
        if rest = [] then ofParts sources constants else .error (.binary .trailingBytes) := by
  show bodyOfBytes (version ++ body) = _
  have hversion : Codec.takeBytes version.length (version ++ body) = .ok (version, body) :=
    Codec.takeBytes_append version body
  simp only [bodyOfBytes, hversion, orFault, RawScript.codec, bind, Except.bind, pure, Except.pure, ne_eq, not_true,
    if_false]
  rcases parts.decode body with e | ⟨⟨sources, constants⟩, rest⟩
  · rfl
  · by_cases hrest : rest = []
    · simp only [hrest, not_true, if_false, if_true]
    · simp only [hrest, not_false_iff, if_true, if_false]
      rfl

theorem length_le_of_ofBytes {body : List UInt8} {s : Script}
    (h : ofBytes (magic ++ version ++ body) = .ok s) :
    s.sources.length ≤ Codec.maxLength ∧ ∀ code ∈ s.sources, code.length ≤ Codec.maxLength := by
  rw [ofBytes_append] at h
  split at h
  · cases h
  · rename_i sources constants rest hdecode
    split at h
    · obtain ⟨rfl, rfl⟩ := parts_of_ofParts h
      obtain ⟨hreadable, -⟩ := Codec.readable_of_pair ⟨_, _, hdecode⟩
      obtain ⟨hlength, hcode⟩ := Codec.length_le_of_readable hreadable
      exact ⟨hlength, fun code hmem => (Codec.length_le_of_readable (hcode code hmem)).1⟩
    · cases h

theorem readsBack_code {code : List UInt8} (h : code.length ≤ Codec.maxLength) :
    (Codec.list .byte).ReadsBack code :=
  Codec.readsBack_list h fun b _ => Codec.readsBack_byte b

/-- **The scripts that survive their binary form** are those with at most `Codec.maxLength` sources, none of them
longer than `Codec.maxLength` bytes. -/
theorem ofBytes_toBytes_eq_ok_iff (s : Script) :
    ofBytes s.toBytes = .ok s ↔
      s.sources.length ≤ Codec.maxLength ∧ ∀ code ∈ s.sources, code.length ≤ Codec.maxLength := by
  constructor
  · intro h
    exact length_le_of_ofBytes h
  · rintro ⟨hlength, hcode⟩
    have hsources : (Codec.list (.list .byte)).ReadsBack s.sources :=
      Codec.readsBack_list hlength fun code hmem => readsBack_code (hcode code hmem)
    have hfew : s.constants.length ≤ Codec.maxLength :=
      Nat.le_trans s.length_constants_le (by decide)
    have hconstants : (Codec.list .word).ReadsBack s.constants :=
      Codec.readsBack_list hfew fun w _ => Codec.readsBack_word w
    have hparts := Codec.readsBack_pair hsources hconstants []
    rw [List.append_nil] at hparts
    rw [toBytes_eq_append, ofBytes_append, parts, hparts]
    exact ofParts_parts s

/-- The lengths of a script can be written in eight bytes. -/
structure Writable (s : Script) : Prop where
  sources : s.sources.length < UInt64.size
  code : ∀ code ∈ s.sources, code.length < UInt64.size

theorem ofBytes_toBytes_of_overlong {s : Script} (h : s.Writable)
    (hlong : Codec.maxLength < s.sources.length ∨
      ∃ code ∈ s.sources, Codec.maxLength < code.length) :
    ofBytes s.toBytes = .error (.binary (.decode .lengthOverflow)) := by
  have hsources : (Codec.list (.list .byte)).Overlong s.sources := by
    by_cases hmany : Codec.maxLength < s.sources.length
    · exact Codec.overlong_of_length hmany h.sources
    · obtain ⟨code, hmem, hlong⟩ := hlong.resolve_left hmany
      apply Codec.overlong_of_mem (Nat.not_lt.mp hmany)
      · intro code hmem
        rcases Nat.lt_or_ge Codec.maxLength code.length with hlong | hle
        · exact Or.inr (Codec.overlong_of_length hlong (h.code code hmem))
        · exact Or.inl (readsBack_code hle)
      · exact ⟨code, hmem, Codec.overlong_of_length hlong (h.code code hmem)⟩
  have hparts := Codec.overlong_pair (d := .list .word) hsources s.constants []
  rw [List.append_nil] at hparts
  rw [toBytes_eq_append, ofBytes_append, parts, hparts]

/-- A script that reads the time twice, and never runs the half a million instructions of its second source. -/
def longScript : Script where
  sources := [[Instruction.blockTimestamp.opcode, 0, Instruction.blockTimestamp.opcode, 0],
    List.replicate (Codec.maxLength + 2) Instruction.isZero.opcode]
  constants := []
  sources_ne_nil := List.cons_ne_nil _ _
  length_even := by
    rw [List.forall_mem_cons, List.forall_mem_singleton, List.length_replicate]
    decide
  length_constants_le := Nat.zero_le _

/-- The long script does not survive: what is written for it is refused. -/
theorem ofBytes_toBytes_longScript :
    ofBytes longScript.toBytes = .error (.binary (.decode .lengthOverflow)) := by
  apply ofBytes_toBytes_of_overlong
  · refine ⟨by decide, ?_⟩
    rw [longScript, List.forall_mem_cons, List.forall_mem_singleton, List.length_replicate]
    decide
  · right
    refine ⟨_, List.mem_cons_of_mem _ List.mem_cons_self, ?_⟩
    rw [List.length_replicate]
    decide

end TokenSale.Script
