import TokenSale.Proofs.Codec.Canonical
import TokenSale.Proofs.Script.Binary

/-!
# One file, one script

All bytes of a binary script count. The magic and the version leave no choice, the codec of the parts is canonical
(`canonical_parts`), and nothing may follow. So bytes that are read as a script are the bytes that are written for it
(`canonical_of_ofBytes`), and any other bytes are refused or read as another script.
-/

namespace TokenSale.Script

theorem canonical_parts : parts.Canonical := by
  apply Codec.canonical_pair
  · exact Codec.canonical_list (Codec.canonical_list Codec.canonical_byte)
  · exact Codec.canonical_list Codec.canonical_word

theorem eq_append_of_hasMagic {input : List UInt8} (h : hasMagic input = true) :
    input = magic ++ input.drop magic.length := by
  have hmagic : input.take magic.length = magic := of_decide_eq_true h
  calc
    input = input.take magic.length ++ input.drop magic.length :=
      (List.take_append_drop magic.length input).symm
    _ = magic ++ input.drop magic.length := by rw [hmagic]

theorem hasMagic_toBytes (s : Script) : hasMagic s.toBytes = true := decide_eq_true rfl

theorem exists_body_of_bodyOfBytes {input : List UInt8} {s : Script} (h : bodyOfBytes input = .ok s) :
    ∃ body, input = version ++ body := by
  simp only [bodyOfBytes, bind, Except.bind] at h
  rcases htake : Codec.takeBytes version.length input with e | ⟨found, body⟩
  · rw [htake] at h
    cases h
  · rw [htake] at h
    dsimp only [orFault] at h
    split at h
    · cases h
    · rename_i hversion
      have hfound : found = version := not_not.mp hversion
      obtain ⟨-, hinput⟩ := Codec.takeBytes_eq_ok htake
      rw [hfound] at hinput
      exact ⟨body, hinput⟩

theorem exists_body_of_ofBytes {input : List UInt8} {s : Script} (h : ofBytes input = .ok s) :
    ∃ body, input = magic ++ version ++ body := by
  unfold ofBytes at h
  split at h
  · cases h
  split at h
  · rename_i hmagic
    obtain ⟨body, hbody⟩ := exists_body_of_bodyOfBytes h
    have hinput := eq_append_of_hasMagic hmagic
    rw [hbody, ← List.append_assoc] at hinput
    exact ⟨body, hinput⟩
  · cases h

theorem toBytes_of_ofBytes {input : List UInt8} {s : Script} (h : ofBytes input = .ok s) :
    s.toBytes = input := by
  obtain ⟨body, rfl⟩ := exists_body_of_ofBytes h
  rw [ofBytes_append] at h
  split at h
  · cases h
  rename_i sources constants rest hdecode
  split at h
  · rename_i hrest
    obtain ⟨hsources, hconstants⟩ := parts_of_ofParts h
    have hbody := canonical_parts _ _ _ hdecode
    rw [hrest, List.append_nil] at hbody
    rw [toBytes_eq_append, hsources, hconstants, hbody]
  · cases h

/-- **The binary form of a script is canonical.** Bytes that are read as a script are those written for it, and what
they are read as has the shape of a script. Any other bytes are refused or read as another script. -/
theorem canonical_of_ofBytes {input : List UInt8} {s : Script} (h : ofBytes input = .ok s) :
    ofParts s.sources s.constants = .ok s ∧
      (s.sources ≠ [] ∧ (∀ code ∈ s.sources, code.length % 2 = 0) ∧ s.constants.length ≤ 256) ∧
      s.toBytes = input ∧
      ∀ other, other ≠ input →
        (∃ fault, ofBytes other = .error fault) ∨ ∃ t, ofBytes other = .ok t ∧ t ≠ s := by
  refine ⟨ofParts_parts s, ⟨s.sources_ne_nil, s.length_even, s.length_constants_le⟩,
    toBytes_of_ofBytes h, ?_⟩
  intro other hother
  cases hread : ofBytes other with
  | error fault => exact Or.inl ⟨fault, rfl⟩
  | ok t =>
    refine Or.inr ⟨t, rfl, ?_⟩
    rintro rfl
    apply hother
    have hbytes := toBytes_of_ofBytes h
    have hbytes' := toBytes_of_ofBytes hread
    exact hbytes'.symm.trans hbytes

/-- Reads the time, and keeps a constant for nothing. -/
def timeScript : Script where
  sources := [[Instruction.blockTimestamp.opcode, 0]]
  constants := [.ofUInt64 258]
  sources_ne_nil := by decide
  length_even := by decide
  length_constants_le := by decide

def timeBytes : List UInt8 :=
  [0x4D, 0x53, 0x43, 0x50, 0x54, 1, 0, 0] ++
    [1, 0, 0, 0, 0, 0, 0, 0] ++ [2, 0, 0, 0, 0, 0, 0, 0] ++ [4, 0] ++
    [1, 0, 0, 0, 0, 0, 0, 0] ++ (2 :: 1 :: List.replicate 30 0)

/-- The last byte of the constant is not idle. -/
theorem canonical_of_ofBytes_timeBytes :
    ofBytes timeBytes = .ok timeScript ∧ timeScript.toBytes = timeBytes ∧
      timeBytes.set 65 1 ≠ timeBytes ∧
      ((∃ fault, ofBytes (timeBytes.set 65 1) = .error fault) ∨
        ∃ t, ofBytes (timeBytes.set 65 1) = .ok t ∧ t ≠ timeScript) := by
  have hread : ofBytes timeBytes = .ok timeScript := by rfl
  have hchanged : timeBytes.set 65 1 ≠ timeBytes := by decide
  obtain ⟨-, -, hbytes, hother⟩ := canonical_of_ofBytes hread
  exact ⟨hread, hbytes, hchanged, hother _ hchanged⟩

end TokenSale.Script
