import TokenSale.Proofs.Expr.Scripts

/-!
# Expressions that are accepted

`Script.ofExprs` has the source that it makes analysed. What the analysis says of the source can be told from the
operations alone (`Operation.extend?`): a literal is always found among the constants, and where an operation stands is
no matter. So expressions whose operations leave the stack within its bounds are accepted as long as they have no more
literals than there may be constants: `exists_ofExprs`.
-/

namespace TokenSale

namespace Summary

variable {constants constants' offset offset' : Nat} {s t : Summary} {i : Instruction} {operand : UInt8}

theorem step_of_checks (hcount : ¬ (i.arity = .operand ∧ operand = 0))
    (hoperand : operandFault? constants s.finalDepth i.operandKind operand offset = none)
    (hinputs : i.arity.inputs operand ≤ s.finalDepth)
    (hroom : s.finalDepth - i.arity.inputs operand < Stack.limit) :
    step constants s i operand offset = .ok
      { instructions := s.instructions + 1
        finalDepth := s.finalDepth - i.arity.inputs operand + 1
        maxDepth := max s.maxDepth (s.finalDepth - i.arity.inputs operand + 1)
        contextLen := max s.contextLen (contextNeeded i.operandKind operand) } := by
  have hfull : ¬ Stack.limit < s.finalDepth - i.arity.inputs operand + i.outputs := Nat.not_lt.mpr hroom
  simp only [step, if_neg hcount, hoperand, if_neg (Nat.not_lt.mpr hinputs), if_neg hfull]
  rfl

/-- What is right with few constants is right with more, and it is right anywhere. -/
theorem operandFault?_of_le {depth : Nat} {kind : OperandKind}
    (h : operandFault? constants depth kind operand offset = none) (hle : constants ≤ constants') :
    operandFault? constants' depth kind operand offset' = none := by
  cases kind with
  | constant =>
    rw [operandFault?_constant_eq_none] at h ⊢
    exact h.trans_le hle
  | stackIndex => rwa [operandFault?_stackIndex_eq_none] at h ⊢
  | slot => rwa [operandFault?_slot_eq_none] at h ⊢
  | comparator => rwa [operandFault?_comparator_eq_none] at h ⊢
  | unused | contextIndex | count | tier => rfl

theorem step_of_le (h : step constants s i operand offset = .ok t) (hle : constants ≤ constants') :
    step constants' s i operand offset' = .ok t := by
  obtain ⟨hcount, hoperand, hinputs, hroom, rfl⟩ := step_eq_ok h
  exact step_of_checks hcount (operandFault?_of_le hoperand hle) hinputs hroom

/-- One constant is loaded like another. -/
theorem step_constant {index : UInt8} (h : step 1 s .constant 0 0 = .ok t) (hindex : index.toNat < constants) :
    step constants s .constant index offset = .ok t := by
  obtain ⟨-, -, hinputs, hroom, rfl⟩ := step_eq_ok h
  have hoperand : operandFault? constants s.finalDepth Instruction.constant.operandKind index offset = none :=
    operandFault?_constant_eq_none.mpr hindex
  exact step_of_checks nofun hoperand hinputs hroom

end Summary

/-- The effect of an operation after operations with the effect `s`. -/
def Operation.extend? (s : Summary) : Operation → Option Summary
  | literal _ => (Summary.step 1 s .constant 0 0).toOption
  | instruction i operand => (Summary.step 0 s i operand 0).toOption

namespace Expr

variable {constants : List Word}

theorem toOption_eq_some {ε α : Type} {r : Except ε α} {a : α} (h : r.toOption = some a) : r = .ok a := by
  cases r with
  | error e => cases h
  | ok b => exact congrArg Except.ok (Option.some.inj h)

/-- Every operation is analysed as its own effect says, if its literal is among the constants. -/
theorem step_of_extend? {op : Operation} {s t : Summary} (h : op.extend? s = some t)
    (hop : ∀ w, op = .literal w → w ∈ constants) (hle : constants.length ≤ maxConstants) (offset : Nat) :
    ∃ i operand, encode constants op = [i.opcode, operand] ∧
      Summary.step constants.length s i operand offset = .ok t := by
  cases op with
  | literal w =>
    have hlt : constants.idxOf w < constants.length := List.idxOf_lt_length_of_mem (hop w rfl)
    have hnat := toNat_ofNat_idxOf (hop w rfl) hle
    exact ⟨.constant, _, rfl, Summary.step_constant (toOption_eq_some h) (hnat.trans_lt hlt)⟩
  | instruction i operand =>
    exact ⟨i, operand, rfl, Summary.step_of_le (toOption_eq_some h) (Nat.zero_le _)⟩

/-- The source of operations is analysed as their effects say. -/
theorem extend_encode {ops : List Operation} {s t : Summary}
    (h : ops.foldlM Operation.extend? s = some t) (hops : ∀ w ∈ literals ops, w ∈ constants)
    (hle : constants.length ≤ maxConstants) (offset : Nat) :
    Summary.extend constants.length s offset (ops.flatMap (encode constants)) = .ok t := by
  induction ops generalizing s offset with
  | nil =>
    cases h
    rfl
  | cons op rest ih =>
    rw [List.foldlM_cons] at h
    obtain ⟨s', hs, hrest⟩ := Option.bind_eq_some_iff.mp h
    have hhead : ∀ w, op = .literal w → w ∈ constants := by
      rintro w rfl
      exact hops w (List.mem_cons_self ..)
    have htail : ∀ w ∈ literals rest, w ∈ constants := fun w hw => hops w (mem_literals_cons hw)
    obtain ⟨i, operand, hcode, hstep⟩ := step_of_extend? hs hhead hle offset
    rw [List.flatMap_cons, hcode]
    simp only [List.cons_append, List.nil_append, Summary.extend, Instruction.ofOpcode?_opcode, hstep]
    exact ih hrest htail _

theorem length_distinct_le (ws : List Word) : (distinct ws).length ≤ ws.length := by
  induction ws with
  | nil => exact Nat.le_refl 0
  | cons w ws ih =>
    rw [distinct, List.length_cons, List.length_cons]
    exact Nat.succ_le_succ ((List.length_filter_le _ _).trans ih)

/-- Expressions are accepted if their operations stay within the stack and do not have too many literals. -/
theorem exists_ofExprs {es : List Expr} {t : Summary}
    (h : (fragments es).flatten.foldlM Operation.extend? .empty = some t)
    (hliterals : (literals (fragments es).flatten).length ≤ maxConstants) :
    ∃ script, Script.ofExprs es = .ok script ∧ script.analyze Script.entry = .ok t := by
  have hle : (pool (fragments es).flatten).length ≤ maxConstants := (length_distinct_le _).trans hliterals
  have hanalyze : (Script.ofOperations _ hle).analyze Script.entry = .ok t := by
    rw [Script.analyze_ofOperations]
    exact extend_encode h (fun w hw => mem_distinct.mpr hw) hle 0
  refine ⟨_, ?_, hanalyze⟩
  rw [ofExprs_of_le hle, hanalyze]
  rfl

end Expr

end TokenSale
