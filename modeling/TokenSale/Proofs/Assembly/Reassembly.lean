import TokenSale.Machine.Basic
import TokenSale.Proofs.Assembly.Listing
import TokenSale.Script.Analysis

/-!
# Reassembled scripts

A listing leaves out the operand bytes of instructions that take no operand, and they are read back as zero. So a script
reads back unchanged from its listing exactly when these bytes are zero already (`disassemble_reads_back_iff`). No
instruction looks at such a byte: the script that is read back has the same analysis and the same runs
(`disassemble_preserves`).
-/

namespace TokenSale

/-! ## Scripts that read back unchanged -/

/-- The operand bytes that a listing leaves out are zero. -/
def UnusedZero : List UInt8 → Prop
  | opcode :: operand :: rest =>
    (∀ i, Instruction.ofOpcode? opcode = some i → i.operandKind = .unused → operand = 0) ∧ UnusedZero rest
  | _ => True

theorem Instruction.kept_eq_self_iff (i : Instruction) (operand : UInt8) :
    i.kept operand = operand ↔ (i.operandKind = .unused → operand = 0) := by
  by_cases h : i.operandKind = .unused
  · rw [kept, h]
    exact ⟨fun hzero _ => hzero.symm, fun hzero => (hzero rfl).symm⟩
  · have hexplicit : i.operandKind.isExplicit = true := bne_iff_ne.mpr h
    rw [kept, if_pos hexplicit]
    exact ⟨fun _ hunused => absurd hunused h, fun _ => rfl⟩

theorem keptCode_eq_self_iff (code : List UInt8) : keptCode code = code ↔ UnusedZero code := by
  induction code using opcodesOf.induct with
  | case1 opcode operand rest ih =>
    cases hi : Instruction.ofOpcode? opcode with
    | none =>
      rw [keptCode_cons_of_none hi, UnusedZero, hi, List.cons.injEq, List.cons.injEq, ih]
      simp
    | some i =>
      rw [keptCode_cons hi, UnusedZero, hi, List.cons.injEq, List.cons.injEq, ih, i.kept_eq_self_iff]
      simp
  | case2 code hcode =>
    rw [keptCode, UnusedZero]
    · simp
    · exact hcode
    · exact hcode

theorem Script.kept_eq_self_iff (s : Script) : s.kept = s ↔ ∀ code ∈ s.sources, UnusedZero code := by
  have hsources : s.kept = s ↔ s.sources.map keptCode = s.sources := by
    constructor
    · exact congrArg fun s : Script => s.sources
    · exact fun h => Script.ext h rfl
  rw [hsources, ← List.map_id s.sources, List.map_map, List.map_inj_left]
  simp only [List.map_id, Function.comp_apply, id_eq, keptCode_eq_self_iff]

namespace Assembly

/-- **The scripts that read back unchanged** from their listing are those whose opcodes are all in the table and whose
unused operand bytes are zero. -/
theorem disassemble_reads_back_iff (s : Script) :
    (∃ text, disassemble s = .ok text ∧ assemble text = .ok s) ↔
      s.Known ∧ ∀ code ∈ s.sources, UnusedZero code := by
  rw [← s.kept_eq_self_iff]
  constructor
  · rintro ⟨text, hlisting, hsame⟩
    have hs := known_of_disassemble hlisting
    obtain ⟨text', hlisting', hkept⟩ := assemble_disassemble hs
    rw [hlisting] at hlisting'
    cases hlisting'
    rw [hsame] at hkept
    exact ⟨hs, (Except.ok.inj hkept).symm⟩
  · rintro ⟨hs, hkept⟩
    obtain ⟨text, hlisting, hread⟩ := assemble_disassemble hs
    rw [hkept] at hread
    exact ⟨text, hlisting, hread⟩

/-- The present time, with an operand byte that nothing looks at. -/
def strayScript : Script where
  sources := [[Instruction.blockTimestamp.opcode, 7]]
  constants := []
  sources_ne_nil := by decide
  length_even := by decide
  length_constants_le := Nat.zero_le _

/-- The stray byte is not written, so another script is read back. -/
theorem assemble_strayScript :
    disassemble strayScript = .ok ".source # 0\nBLOCK_TIMESTAMP\n" ∧
      assemble ".source # 0\nBLOCK_TIMESTAMP\n" ≠ .ok strayScript := by
  have hread : assemble ".source # 0\nBLOCK_TIMESTAMP\n" = .ok strayScript.kept := by rfl
  constructor
  · rfl
  · rw [hread]
    intro h
    have hsources : strayScript.kept.sources = strayScript.sources :=
      congrArg (fun s : Script => s.sources) (Except.ok.inj h)
    exact absurd hsources (by decide)

end Assembly

/-! ## Operands that nothing looks at -/

namespace Summary

theorem step_kept (constants : Nat) (t : Summary) (i : Instruction) (operand : UInt8) (offset : Nat) :
    step constants t i (i.kept operand) offset = step constants t i operand offset := by
  cases i with
  | compare r => cases r <;> rfl
  | _ => rfl

theorem extend_keptCode (constants : Nat) (t : Summary) (offset : Nat) (code : List UInt8) :
    extend constants t offset (keptCode code) = extend constants t offset code := by
  induction code using opcodesOf.induct generalizing t offset with
  | case1 opcode operand rest ih =>
    cases hi : Instruction.ofOpcode? opcode with
    | none =>
      rw [keptCode_cons_of_none hi, extend, extend, hi]
    | some i =>
      rw [keptCode_cons hi, extend, extend, hi]
      dsimp only
      rw [step_kept]
      cases step constants t i operand offset with
      | error fault => rfl
      | ok t' => exact ih t' (offset + Instruction.width)
  | case2 code hcode =>
    rw [keptCode]
    exact hcode

end Summary

namespace Machine

variable {σ : Type}

theorem exec_kept (scene : Scene σ) (constants : List Word) (i : Instruction) (operand : UInt8)
    (offset : Nat) : exec scene constants i (i.kept operand) offset = exec scene constants i operand offset := by
  cases i with
  | compare r => cases r <;> rfl
  | _ => rfl

theorem execFrom_keptCode (scene : Scene σ) (constants : List Word) (limit source offset : Nat)
    (code : List UInt8) :
    execFrom scene constants limit source offset (keptCode code) =
      execFrom scene constants limit source offset code := by
  induction code using opcodesOf.induct generalizing offset with
  | case1 opcode operand rest ih =>
    cases hi : Instruction.ofOpcode? opcode with
    | none => rw [keptCode_cons_of_none hi, execFrom, execFrom, hi]
    | some i =>
      rw [keptCode_cons hi, execFrom, execFrom, hi]
      dsimp only
      rw [exec_kept, ih]
  | case2 code hcode =>
    rw [keptCode]
    exact hcode

end Machine

/-! ## The script that is read back -/

namespace Script

theorem source_kept (s : Script) (index : Nat) : s.kept.source index = (s.source index).map keptCode := by
  rw [RawScript.source, RawScript.source, kept, List.getElem?_map, List.length_map]
  cases s.sources[index]? <;> rfl

theorem analyze_kept (s : Script) (index : Nat) : s.kept.analyze index = s.analyze index := by
  rw [RawScript.analyze, RawScript.analyze, source_kept]
  cases s.source index with
  | error fault => rfl
  | ok code => exact Summary.extend_keptCode s.constants.length .empty 0 code

theorem run_kept {σ : Type} (s : Script) (limit : Nat) (scene : Scene σ) (index : Nat) :
    Machine.run s.kept limit scene index = Machine.run s limit scene index := by
  rw [Machine.run, Machine.run, source_kept]
  cases s.source index with
  | error fault => rfl
  | ok code =>
    show (modify _ >>= fun _ => Machine.execFrom scene s.constants limit index 0 (keptCode code)) = _
    rw [Machine.execFrom_keptCode]

end Script

namespace Assembly

/-- **Reassembled scripts behave alike.** A script has a listing if its opcodes are all in the table, and the script read
back from it has the same constants, the code that assembly keeps, the same analysis and the same runs. -/
theorem disassemble_preserves (s : Script) :
    ((∃ text, disassemble s = .ok text) ↔ s.Known) ∧
      ∀ text, disassemble s = .ok text →
        ∃ s' : Script, assemble text = .ok s' ∧ s'.constants = s.constants ∧
          s'.sources = s.sources.map keptCode ∧
          (∀ index, s'.analyze index = s.analyze index) ∧
          ∀ {σ : Type} (scene : Scene σ) (limit index : Nat) (m : Machine σ),
            (Machine.run s' limit scene index).perform m = (Machine.run s limit scene index).perform m := by
  refine ⟨⟨?_, ?_⟩, ?_⟩
  · rintro ⟨text, h⟩
    exact known_of_disassemble h
  · intro hs
    obtain ⟨text, h, -⟩ := assemble_disassemble hs
    exact ⟨text, h⟩
  · intro text h
    obtain ⟨text', h', hread⟩ := assemble_disassemble (known_of_disassemble h)
    rw [h] at h'
    cases h'
    refine ⟨s.kept, hread, rfl, rfl, s.analyze_kept, ?_⟩
    intro σ scene limit index m
    rw [s.run_kept]

/-- Operands without a name, an operand byte that nothing looks at and a source without code. -/
def mixedScript : Script where
  sources := [[Instruction.timeCmp.opcode, 200, Instruction.isZero.opcode, 7, Instruction.storage.opcode, 9], []]
  constants := [0, .greatest]
  sources_ne_nil := by decide
  length_even := by decide
  length_constants_le := by decide

theorem disassemble_preserves_mixedScript :
    ∃ text s', disassemble mixedScript = .ok text ∧ assemble text = .ok s' ∧
      s'.sources = [[0x30, 200, 0x20, 0, 0x03, 9], []] ∧
      ∀ index, s'.analyze index = mixedScript.analyze index := by
  obtain ⟨⟨-, hexists⟩, hread⟩ := disassemble_preserves mixedScript
  have hknown : mixedScript.Known := by decide
  obtain ⟨text, hlisting⟩ := hexists hknown
  obtain ⟨s', hs', -, hsources, hanalyze, -⟩ := hread text hlisting
  exact ⟨text, s', hlisting, hs', hsources, hanalyze⟩

end Assembly

end TokenSale
