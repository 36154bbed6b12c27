import TokenSale.Proofs.Machine.Faults
import TokenSale.Proofs.Machine.Underflow
import TokenSale.Proofs.Script.Analysis

/-!
# What the analysis refuses fails in every run

The analysis refuses a source at one of its instructions. A run that has all of the context and the steps that it may
need comes as far as this instruction and fails there for the same reason, or some arithmetic before it fails:
`run_of_analyze_error`. The code before has been accepted, so that `foretold_exec` says what a run does there. At the
instruction itself both make the same checks in the same order (`exec_of_step_error`). Only an instruction that takes a
fixed number of values does not count them at once, as the analysis does, but takes them one by one; the counts that it
reports of a stack too low are others then (`Fault.Alike`).
-/

namespace TokenSale

namespace Fault

/-- The same fault, except for the counts of an instruction that takes a fixed number of values. -/
inductive Alike : Fault → Fault → Prop
  | same (fault : Fault) : Alike fault fault
  | underflow {i : Instruction} {n : Nat} (offset required available required' available' : Nat) :
      i.arity = .fixed n →
      Alike (.stackUnderflow ⟨i.mnemonic, offset⟩ required available)
        (.stackUnderflow ⟨i.mnemonic, offset⟩ required' available')

/-- A fault of the arithmetic before an offset. -/
def ArithmeticBefore (offset : Nat) (fault : Fault) : Prop :=
  fault.IsArithmetic ∧ ∃ earlier, fault.offset? = some earlier ∧ earlier < offset

end Fault

namespace Summary

/-- Why the analysis refuses an instruction, in the order of its checks. -/
inductive Refuses (constants : Nat) (s : Summary) (i : Instruction) (operand : UInt8) (offset : Nat) :
    Fault → Prop
  | count : i.arity = .operand ∧ operand = 0 →
      Refuses constants s i operand offset (.invalidOperandCount ⟨i.mnemonic, offset⟩ operand)
  | operand {fault : Fault} : ¬ (i.arity = .operand ∧ operand = 0) →
      operandFault? constants s.finalDepth i.operandKind operand offset = some fault →
      Refuses constants s i operand offset fault
  | underflow : ¬ (i.arity = .operand ∧ operand = 0) →
      operandFault? constants s.finalDepth i.operandKind operand offset = none →
      s.finalDepth < i.arity.inputs operand →
      Refuses constants s i operand offset
        (.stackUnderflow ⟨i.mnemonic, offset⟩ (i.arity.inputs operand) s.finalDepth)
  | overflow : ¬ (i.arity = .operand ∧ operand = 0) →
      operandFault? constants s.finalDepth i.operandKind operand offset = none →
      i.arity.inputs operand ≤ s.finalDepth → Stack.limit ≤ s.finalDepth - i.arity.inputs operand →
      Refuses constants s i operand offset (.stackOverflow ⟨i.mnemonic, offset⟩ Stack.limit)

variable {constants offset : Nat} {s : Summary} {i : Instruction} {operand : UInt8} {fault : Fault}

theorem refuses_of_step (h : step constants s i operand offset = .error fault) :
    Refuses constants s i operand offset fault := by
  simp only [step] at h
  split at h
  · rename_i hcount
    cases h
    exact .count hcount
  rename_i hcount
  split at h
  · rename_i hoperand
    cases h
    exact .operand hcount hoperand
  rename_i hoperand
  split at h
  · rename_i hinputs
    cases h
    exact .underflow hcount hoperand hinputs
  rename_i hinputs
  split at h
  · rename_i hroom
    cases h
    exact .overflow hcount hoperand (Nat.not_lt.mp hinputs) (Nat.le_of_lt_succ hroom)
  · cases h

theorem offset_of_operandFault? {depth : Nat} {kind : OperandKind}
    (h : operandFault? constants depth kind operand offset = some fault) : fault.offset? = some offset := by
  cases kind with
  | unused | contextIndex | count | tier => cases h
  | constant | stackIndex | slot | comparator =>
    simp only [operandFault?] at h
    split at h
    · cases h
    · cases h
      rfl

theorem Refuses.offset_eq (h : Refuses constants s i operand offset fault) : fault.offset? = some offset := by
  cases h with
  | count _ => rfl
  | operand _ hoperand => exact offset_of_operandFault? hoperand
  | underflow _ _ _ => rfl
  | overflow _ _ _ _ => rfl

theorem contextNeeded_le (kind : OperandKind) (operand : UInt8) : contextNeeded kind operand ≤ 256 := by
  have := operand.toNat_lt
  unfold contextNeeded
  split <;> omega

end Summary

namespace Machine

variable {σ : Type} {scene : Scene σ} {constants : List Word} {offset : Nat} {site : Site}

/-! ## The instruction that is refused -/

theorem exec_of_operandFault? {i : Instruction} {operand : UInt8} {fault : Fault} {m : Machine σ}
    (hcount : ¬ (i.arity = .operand ∧ operand = 0))
    (h : Summary.operandFault? constants.length m.stack.depth i.operandKind operand offset = some fault) :
    (exec scene constants i operand offset).perform m = (.error fault, m) := by
  rw [exec, if_neg hcount]
  cases i with
  | constant =>
    simp only [Instruction.operandKind, Summary.operandFault?] at h
    split at h
    · cases h
    · rename_i hlt
      cases h
      rw [dispatch, List.getElem?_eq_none (Nat.not_lt.mp hlt)]
      rfl
  | stack =>
    simp only [Instruction.operandKind, Summary.operandFault?] at h
    split at h
    · cases h
    · rename_i hlt
      cases h
      have hnone : m.stack.get? operand.toNat = none := by
        rw [Stack.get?, Stack.toList]
        exact List.getElem?_eq_none (by rw [List.length_reverse]; exact Nat.not_lt.mp hlt)
      rw [dispatch, Action.perform_bind_of_ok (Action.perform_get m), hnone]
      rfl
  | storage =>
    simp only [Instruction.operandKind, Summary.operandFault?] at h
    split at h
    · cases h
    · rename_i hnone
      cases h
      rw [dispatch, Option.not_isSome_iff_eq_none.mp hnone]
      rfl
  | timeCmp =>
    simp only [Instruction.operandKind, Summary.operandFault?] at h
    split at h
    · cases h
    · rename_i hnone
      cases h
      rw [dispatch, Option.not_isSome_iff_eq_none.mp hnone]
      rfl
  | _ => cases h

/-- An instruction without values to take always has a value to leave, given all of the context. -/
theorem exists_outcome_of_inputs_eq_zero {i : Instruction} {operand : UInt8} {stack : List Word}
    (hcount : ¬ (i.arity = .operand ∧ operand = 0))
    (hoperand : Summary.operandFault? constants.length stack.length i.operandKind operand offset = none)
    (hinputs : i.arity.inputs operand = 0) (hcontext : 256 ≤ scene.context.length) (store : σ) :
    ∃ w, (outcome scene constants offset stack store i operand []).result = .ok w := by
  cases i with
  | constant =>
    have hlt := Summary.operandFault?_constant_eq_none.mp hoperand
    exact ⟨constants[operand.toNat], by rw [outcome, List.getElem?_eq_getElem hlt]; rfl⟩
  | stack =>
    have hlt := Summary.operandFault?_stackIndex_eq_none.mp hoperand
    exact ⟨stack[operand.toNat], by rw [outcome, List.getElem?_eq_getElem hlt]; rfl⟩
  | context =>
    have hlt : operand.toNat < scene.context.length := operand.toNat_lt.trans_le hcontext
    exact ⟨scene.context[operand.toNat], by rw [outcome, List.getElem?_eq_getElem hlt]; rfl⟩
  | storage =>
    obtain ⟨slot, hslot⟩ := Summary.operandFault?_slot_eq_none.mp hoperand
    exact ⟨(scene.storage.read slot store).1, by rw [outcome, hslot]⟩
  | blockTimestamp => exact ⟨.ofUInt64 scene.time, rfl⟩
  | aggregate op => exact absurd ⟨rfl, UInt8.toNat_inj.mp hinputs⟩ hcount
  | numberMinted | isZero | compare | eagerIf | timeCmp | betweenTimestamps | tierLevel | hasMinTier =>
    cases hinputs

/-- The machine makes the checks of the analysis, in the same order. -/
theorem exec_of_step_error {s : Summary} {i : Instruction} {operand : UInt8} {fault : Fault}
    (h : Summary.step constants.length s i operand offset = .error fault)
    (hcontext : 256 ≤ scene.context.length) {m : Machine σ} (hdepth : m.stack.depth = s.finalDepth) :
    ∃ fault' m', (exec scene constants i operand offset).perform m = (.error fault', m') ∧
      fault.Alike fault' := by
  cases Summary.refuses_of_step h with
  | count hcount =>
    refine ⟨_, m, ?_, .same _⟩
    rw [exec, if_pos hcount]
    rfl
  | operand hcount hoperand =>
    rw [← hdepth] at hoperand
    exact ⟨fault, m, exec_of_operandFault? hcount hoperand, .same fault⟩
  | underflow hcount hoperand hinputs =>
    have hlegal := legalOperand_of_operandFault? hcount hoperand
    rw [← hdepth] at hinputs ⊢
    cases harity : i.arity with
    | fixed n =>
      rw [harity] at hinputs
      have hshort : Underflows ⟨i.mnemonic, offset⟩ (exec scene constants i operand offset) m :=
        underflows_exec hlegal harity hinputs
      obtain ⟨required, available, m', hexec⟩ := hshort
      exact ⟨_, m', hexec, .underflow offset _ _ _ _ harity⟩
    | operand =>
      cases i with
      | aggregate op =>
        have hmany : m.stack.depth < operand.toNat := hinputs
        refine ⟨_, m, ?_, .same _⟩
        rw [exec, if_neg hcount, dispatch]
        exact Action.perform_bind_of_error (perform_popMany_over hmany)
      | _ => cases harity
  | overflow hcount hoperand hinputs hroom =>
    have hlegal := legalOperand_of_operandFault? hcount hoperand
    have hle : m.stack.depth ≤ Stack.limit := m.stack.length_le
    have hlist : m.stack.toList.length = s.finalDepth := by
      rw [← hdepth, Stack.toList, List.length_reverse, Stack.depth]
    have hzero : i.arity.inputs operand = 0 := by omega
    have hargs : ([] : List Word).length = i.arity.inputs operand := hzero.symm
    have hfull : m.stack.depth = Stack.limit := by omega
    rw [← hlist] at hoperand
    obtain ⟨w, hw⟩ := exists_outcome_of_inputs_eq_zero hcount hoperand hzero hcontext m.store
    let o := outcome scene constants offset m.stack.toList m.store i operand []
    refine ⟨.stackOverflow ⟨i.mnemonic, offset⟩ Stack.limit, m.settle m.stack o, ?_, .same _⟩
    rw [perform_exec hlegal hargs rfl]
    simp only [hw]
    exact perform_push_of_full (m := m.settle m.stack o) hfull.not_lt _ w

/-! ## The instructions before -/

variable {limit : Nat}

/-- With all of the context and a step left, an accepted instruction fails for its arithmetic only. -/
theorem exec_accepted {s t : Summary} {i : Instruction} {operand : UInt8}
    (h : Summary.step constants.length s i operand offset = .ok t) (hcontext : 256 ≤ scene.context.length)
    {m : Machine σ} (hm : Matches scene limit s m) (hlimit : s.instructions < limit) :
    (∃ m', (exec scene constants i operand offset).perform m.counted = (.ok (), m') ∧
        Matches scene limit t m') ∨
      ∃ fault m', (exec scene constants i operand offset).perform m.counted = (.error fault, m') ∧
        fault.IsArithmetic ∧ fault.offset? = some offset := by
  have hend := foretold_exec h hm hlimit
  rcases hrun : (exec scene constants i operand offset).perform m.counted with ⟨fault | _, m'⟩
  · rw [hrun] at hend
    obtain ⟨-, -, -, -, rfl⟩ := Summary.step_eq_ok h
    have hneeded := Summary.contextNeeded_le i.operandKind operand
    have harith := hend.2.isArithmetic (max_le hm.context_le (hneeded.trans hcontext)) hlimit
    exact Or.inr ⟨fault, m', rfl, harith, failsAt_exec i operand _ _ _ hrun⟩
  · rw [hrun] at hend
    exact Or.inl ⟨m', rfl, hend⟩

/-! ## Whole runs -/

/-- What a run comes to on code that the analysis refuses, from any machine that the analysis so far describes: `k`
instructions on it fails as the analysis says, unless it has failed before. -/
theorem refused_execFrom (source : Nat) {code : List UInt8} {s : Summary} {fault : Fault}
    (h : Summary.extend constants.length s offset code = .error fault)
    (hcontext : 256 ≤ scene.context.length) :
    ∃ k, fault.offset? = some (offset + Instruction.width * k) ∧
      ∀ limit m, Matches scene limit s m → s.instructions + k < limit →
        ∃ fault' m', (execFrom scene constants limit source offset code).perform m = (.error fault', m') ∧
          (fault'.ArithmeticBefore (offset + Instruction.width * k) ∨ fault.Alike fault') := by
  fun_induction Summary.extend constants.length s offset code with
  | case1 s offset opcode operand rest hnone =>
    cases h
    refine ⟨0, rfl, fun limit m hm hlimit => ?_⟩
    have htick : (tick limit).perform m = (.ok (), m.counted) := perform_tick (hm.steps ▸ hlimit)
    refine ⟨_, m.counted, ?_, Or.inr (.same _)⟩
    rw [execFrom, Action.perform_bind_of_ok htick, hnone]
    rfl
  | case2 s offset opcode operand rest i hi fault' hs =>
    cases h
    refine ⟨0, (Summary.refuses_of_step hs).offset_eq, fun limit m hm hlimit => ?_⟩
    obtain ⟨fault', m', hexec, halike⟩ := exec_of_step_error hs hcontext (m := m.counted) hm.depth
    refine ⟨fault', m', ?_, Or.inr halike⟩
    rw [perform_execFrom_cons hi rest (hm.steps ▸ hlimit), Action.perform_bind_of_error hexec]
  | case3 s offset opcode operand rest i hi s' hs ih =>
    obtain ⟨k, hoffset, hrest⟩ := ih h
    have hnext : offset + Instruction.width + Instruction.width * k =
        offset + Instruction.width * (k + 1) := by
      rw [Nat.mul_succ]
      omega
    rw [hnext] at hoffset hrest
    refine ⟨k + 1, hoffset, fun limit m hm hlimit => ?_⟩
    have hstep : s.instructions < limit := by omega
    have hinstr : s'.instructions = s.instructions + 1 := by
      obtain ⟨-, -, -, -, rfl⟩ := Summary.step_eq_ok hs
      rfl
    rw [perform_execFrom_cons hi rest (hm.steps ▸ hstep)]
    rcases exec_accepted hs hcontext hm hstep with ⟨m', hexec, hm'⟩ | ⟨fault', m', hexec, harith, hfault⟩
    · rw [Action.perform_bind_of_ok hexec]
      exact hrest limit m' hm' (by omega)
    · rw [Action.perform_bind_of_error hexec]
      refine ⟨fault', m', rfl, Or.inl ⟨harith, offset, hfault, ?_⟩⟩
      simp only [Instruction.width]
      omega
  | case4 => cases h

/-- **What the analysis refuses fails in every run.** The analysis of a source that exists names an instruction when it
fails. A run with all the context that an operand can ask for, and with the steps to come so far, fails too: at this
instruction and for the same reason, but for the counts of a stack too low, or before it for its arithmetic. -/
theorem run_of_analyze_error {script : RawScript} {source : Nat} {fault : Fault}
    (hsource : source < script.sources.length) (h : script.analyze source = .error fault)
    {scene : Scene σ} (hcontext : 256 ≤ scene.context.length) :
    ∃ offset, fault.offset? = some offset ∧ ∀ limit, offset / Instruction.width < limit → ∀ m,
      ∃ fault' m', (run script limit scene source).perform m = (.error fault', m') ∧
        (fault'.ArithmeticBefore offset ∨ fault.Alike fault') := by
  obtain ⟨code, hcode⟩ := RawScript.exists_source hsource
  have hextend : Summary.extend script.constants.length .empty 0 code = .error fault := by
    rw [RawScript.analyze, hcode] at h
    exact h
  obtain ⟨k, hoffset, hrun⟩ := refused_execFrom source hextend hcontext
  rw [Nat.zero_add] at hoffset hrun
  refine ⟨Instruction.width * k, hoffset, fun limit hlimit m => ?_⟩
  rw [Nat.mul_div_cancel_left k (by decide)] at hlimit
  rw [perform_run hcode]
  exact hrun limit m.fresh (matches_fresh m) (by rw [Summary.empty, Nat.zero_add]; exact hlimit)

/-- Seven shared among a value of the context, compared with nothing. -/
def loneScript : Script where
  sources := [[Instruction.constant.opcode, 0, Instruction.context.opcode, 0,
    (Instruction.aggregate .div).opcode, 2, (Instruction.compare .equal).opcode, 0]]
  constants := [.ofUInt64 7]
  sources_ne_nil := by decide
  length_even := by decide
  length_constants_le := by decide

/-- The comparison misses a value. The analysis counts one of two, the machine takes it and finds none left. -/
theorem run_of_analyze_error_loneScript :
    let fault : Fault := .stackUnderflow ⟨"EQUAL_TO", 6⟩ 2 1
    let scene (w : Word) : Scene Unit := ⟨Counters.zero.storage, .none, 0, List.replicate 256 w⟩
    loneScript.analyze Script.entry = .error fault ∧
      (∀ w, ∃ fault' m', (run loneScript 4 (scene w) Script.entry).perform (idle ()) = (.error fault', m') ∧
        (fault'.ArithmeticBefore 6 ∨ fault.Alike fault')) ∧
      ((run loneScript 4 (scene 0) Script.entry).perform (idle ())).1 = .error (.divisionByZero ⟨"DIV", 4⟩) ∧
      ((run loneScript 4 (scene 1) Script.entry).perform (idle ())).1 =
        .error (.stackUnderflow ⟨"EQUAL_TO", 6⟩ 1 0) := by
  intro fault scene
  have h : loneScript.analyze Script.entry = .error fault := by decide
  refine ⟨h, fun w => ?_, by rfl, by rfl⟩
  have hcontext : 256 ≤ (scene w).context.length := (List.length_replicate ..).ge
  obtain ⟨offset, hoffset, hrun⟩ := run_of_analyze_error (by decide) h hcontext
  obtain rfl : 6 = offset := Option.some.inj hoffset
  exact hrun 4 (by decide) (idle ())

end Machine

end TokenSale
