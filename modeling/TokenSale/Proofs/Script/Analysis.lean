import Mathlib.Order.Lattice
import TokenSale.Proofs.Machine.Run
import TokenSale.Script.Analysis

/-!
# The analysis foretells the run

`RawScript.analyze` follows the depth of the stack alone. `Machine.Matches` relates what it has found so far to a
machine in the middle of a run, and one instruction keeps the relation or ends the run with one of the few faults
that the analysis leaves open (`foretold_exec`). An induction on the code gives the same for all of it
(`foretold_execFrom`), and the theorem on whole runs is `run_of_analyze`. A source that is not whole fails as its
instructions do, or for the byte behind them (`run_of_stray`).
-/

namespace TokenSale

namespace Summary

/-! ## What the analysis accepts -/

/-- All that an accepted instruction has passed, and what it changes. -/
theorem step_eq_ok {constants : Nat} {s t : Summary} {i : Instruction} {operand : UInt8}
    {offset : Nat} (h : step constants s i operand offset = .ok t) :
    ¬ (i.arity = .operand ∧ operand = 0) ∧
      operandFault? constants s.finalDepth i.operandKind operand offset = none ∧
      i.arity.inputs operand ≤ s.finalDepth ∧
      s.finalDepth - i.arity.inputs operand < Stack.limit ∧
      t = { instructions := s.instructions + 1
            finalDepth := s.finalDepth - i.arity.inputs operand + 1
            maxDepth := max s.maxDepth (s.finalDepth - i.arity.inputs operand + 1)
            contextLen := max s.contextLen (contextNeeded i.operandKind operand) } := by
  simp only [step] at h
  split at h
  · cases h
  · rename_i hcount
    split at h
    · cases h
    · rename_i hoperand
      split at h
      · cases h
      · rename_i hinputs
        split at h
        · cases h
        · rename_i hroom
          cases h
          exact ⟨hcount, hoperand, Nat.not_lt.mp hinputs, Nat.not_lt.mp hroom, rfl⟩

section Operands

variable {constants depth offset : Nat} {operand : UInt8}

theorem operandFault?_constant_eq_none :
    operandFault? constants depth .constant operand offset = none ↔ operand.toNat < constants := by
  simp [operandFault?]

theorem operandFault?_stackIndex_eq_none :
    operandFault? constants depth .stackIndex operand offset = none ↔ operand.toNat < depth := by
  simp [operandFault?]

theorem operandFault?_slot_eq_none :
    operandFault? constants depth .slot operand offset = none ↔ ∃ slot, Slot.ofCode? operand = some slot := by
  simp [operandFault?, Option.isSome_iff_exists]

theorem operandFault?_comparator_eq_none :
    operandFault? constants depth .comparator operand offset = none ↔
      ∃ c, Comparator.ofCode? operand = some c := by
  simp [operandFault?, Option.isSome_iff_exists]

end Operands

theorem extend_cons_eq_ok {constants offset : Nat} {s t : Summary} {opcode operand : UInt8}
    {rest : List UInt8} (h : extend constants s offset (opcode :: operand :: rest) = .ok t) :
    ∃ i s', Instruction.ofOpcode? opcode = some i ∧ step constants s i operand offset = .ok s' ∧
      extend constants s' (offset + Instruction.width) rest = .ok t := by
  rw [extend] at h
  split at h
  · cases h
  · rename_i i hi
    split at h
    · cases h
    · rename_i s' hs
      exact ⟨i, s', hi, hs, h⟩

/-- Code is analysed part after part. -/
theorem extend_append {constants offset : Nat} {s : Summary} {code : List UInt8}
    (heven : code.length % Instruction.width = 0) (rest : List UInt8) :
    extend constants s offset (code ++ rest) =
      (extend constants s offset code).bind fun t => extend constants t (offset + code.length) rest := by
  fun_induction extend constants s offset code with
  | case1 s offset opcode operand more hi =>
    simp only [List.cons_append, extend, hi, Except.bind]
  | case2 s offset opcode operand more i hi fault hs =>
    simp only [List.cons_append, extend, hi, hs, Except.bind]
  | case3 s offset opcode operand more i hi s' hs ih =>
    have hmore : more.length % Instruction.width = 0 := by
      simp only [List.length_cons, Instruction.width] at heven ⊢
      omega
    simp only [List.cons_append, extend, hi, hs, ih hmore, List.length_cons, Nat.add_assoc,
      Nat.add_comm Instruction.width]
    rfl
  | case4 code s offset hcode =>
    rcases code with _ | ⟨opcode, _ | ⟨operand, more⟩⟩
    · rfl
    · cases heven
    · exact (hcode opcode operand more rfl).elim

/-- A summary that grows: `t` comes from `s` by more code. -/
structure Grows (s t : Summary) : Prop where
  instructions : s.instructions ≤ t.instructions
  maxDepth : s.maxDepth ≤ t.maxDepth
  contextLen : s.contextLen ≤ t.contextLen

theorem Grows.refl (s : Summary) : Grows s s := ⟨le_rfl, le_rfl, le_rfl⟩

theorem Grows.trans {s t u : Summary} (h : Grows s t) (h' : Grows t u) : Grows s u :=
  ⟨h.instructions.trans h'.instructions, h.maxDepth.trans h'.maxDepth,
    h.contextLen.trans h'.contextLen⟩

theorem grows_of_step {constants offset : Nat} {s t : Summary} {i : Instruction} {operand : UInt8}
    (h : step constants s i operand offset = .ok t) : Grows s t := by
  obtain ⟨-, -, -, -, rfl⟩ := step_eq_ok h
  exact ⟨Nat.le_succ _, le_max_left _ _, le_max_left _ _⟩

theorem grows_of_extend {constants offset : Nat} {s t : Summary} {code : List UInt8}
    (h : extend constants s offset code = .ok t) : Grows s t := by
  fun_induction extend constants s offset code with
  | case1 => cases h
  | case2 => cases h
  | case3 s offset opcode operand rest i hi s' hs ih => exact (grows_of_step hs).trans (ih h)
  | case4 => cases h; exact Grows.refl _

theorem instructions_of_extend {constants offset : Nat} {s t : Summary} {code : List UInt8}
    (h : extend constants s offset code = .ok t) :
    t.instructions = s.instructions + code.length / Instruction.width := by
  fun_induction extend constants s offset code with
  | case1 => cases h
  | case2 => cases h
  | case3 s offset opcode operand rest i hi s' hs ih =>
    obtain ⟨-, -, -, -, rfl⟩ := step_eq_ok hs
    have hlen := ih h
    simp only [List.length_cons, Instruction.width] at hlen ⊢
    omega
  | case4 code s offset hcode =>
    cases h
    rcases code with _ | ⟨opcode, _ | ⟨operand, rest⟩⟩
    · rfl
    · simp [Instruction.width]
    · exact (hcode opcode operand rest rfl).elim

/-- The analysis of some code has analysed every part of it that it starts with. -/
theorem extend_take {constants offset : Nat} {s t : Summary} {code : List UInt8}
    (h : extend constants s offset code = .ok t) (k : Nat) :
    ∃ s', extend constants s offset (code.take (Instruction.width * k)) = .ok s' ∧ Grows s' t := by
  fun_induction extend constants s offset code generalizing k with
  | case1 => cases h
  | case2 => cases h
  | case3 s offset opcode operand rest i hi s' hs ih =>
    cases k with
    | zero => exact ⟨s, rfl, (grows_of_step hs).trans (grows_of_extend h)⟩
    | succ k =>
      obtain ⟨t', ht', hgrows⟩ := ih h k
      refine ⟨t', ?_, hgrows⟩
      rw [show Instruction.width * (k + 1) = Instruction.width * k + 1 + 1 from rfl]
      simp only [List.take_succ_cons, extend, hi, hs, ht']
  | case4 code s offset hcode =>
    cases h
    refine ⟨t, ?_, Grows.refl t⟩
    rcases code with _ | ⟨opcode, _ | ⟨operand, rest⟩⟩
    · simp only [List.take_nil, extend]
    · cases k <;> rfl
    · exact (hcode opcode operand rest rfl).elim

end Summary

namespace RawScript

variable {script : RawScript} {source : Nat} {t : Summary}

theorem source_of_analyze (h : script.analyze source = .ok t) :
    ∃ code, script.source source = .ok code ∧
      Summary.extend script.constants.length .empty 0 code = .ok t := by
  rw [analyze] at h
  cases hcode : script.source source with
  | error fault => rw [hcode] at h; cases h
  | ok code =>
    rw [hcode] at h
    exact ⟨code, rfl, h⟩

theorem instructions_of_analyze (h : script.analyze source = .ok t) :
    t.instructions = script.instructionCount source := by
  obtain ⟨code, hcode, hextend⟩ := source_of_analyze h
  rw [Summary.instructions_of_extend hextend, instructionCount_of_source hcode]
  exact Nat.zero_add _

end RawScript

/-- A read past the end of the context. -/
def Fault.IsContextRead (fault : Fault) : Prop :=
  ∃ offset index available, fault = .contextOutOfBounds offset index available

namespace Machine

variable {σ : Type} {scene : Scene σ} {constants : List Word} {limit : Nat}

/-! ## One instruction -/

theorem isArithmetic_ofMishap (site : Site) (mishap : Mishap) :
    (Fault.ofMishap site mishap).IsArithmetic := by
  cases mishap with
  | overflow => exact ⟨site, Or.inl rfl⟩
  | zeroDivisor => exact ⟨site, Or.inr rfl⟩

/-- With an operand that the analysis accepts, only the values and a short context can be at fault. -/
theorem outcome_of_operandFault? {i : Instruction} {operand : UInt8} {offset : Nat}
    {stack args : List Word}
    (hoperand : Summary.operandFault? constants.length stack.length i.operandKind operand offset = none)
    (hlen : args.length = i.arity.inputs operand) (scene : Scene σ) (store : σ) :
    match (outcome scene constants offset stack store i operand args).result with
    | .ok _ => Summary.contextNeeded i.operandKind operand ≤ scene.context.length
    | .error fault => fault.IsArithmetic ∨
        scene.context.length < Summary.contextNeeded i.operandKind operand ∧ fault.IsContextRead := by
  cases i with
  | constant =>
    have hlt := Summary.operandFault?_constant_eq_none.mp hoperand
    simp [outcome, orFault, List.getElem?_eq_getElem hlt, Instruction.operandKind,
      Summary.contextNeeded]
  | stack =>
    have hlt := Summary.operandFault?_stackIndex_eq_none.mp hoperand
    simp [outcome, orFault, List.getElem?_eq_getElem hlt, Instruction.operandKind,
      Summary.contextNeeded]
  | context =>
    simp only [outcome, Instruction.operandKind, Summary.contextNeeded, if_true]
    by_cases hlt : operand.toNat < scene.context.length
    · simp only [List.getElem?_eq_getElem hlt, orFault]
      omega
    · simp only [List.getElem?_eq_none (Nat.not_lt.mp hlt), orFault]
      exact Or.inr ⟨by omega, _, _, _, rfl⟩
  | storage =>
    obtain ⟨slot, hslot⟩ := Summary.operandFault?_slot_eq_none.mp hoperand
    simp [outcome, hslot, Instruction.operandKind, Summary.contextNeeded]
  | blockTimestamp => simp [outcome, Instruction.operandKind, Summary.contextNeeded]
  | numberMinted =>
    obtain ⟨account, rfl⟩ := List.length_eq_one_iff.mp hlen
    simp [outcome, Instruction.operandKind, Summary.contextNeeded]
  | aggregate op =>
    simp only [outcome]
    cases op.eval args with
    | ok w => simp [Except.mapError, Instruction.operandKind, Summary.contextNeeded]
    | error mishap => exact Or.inl (isArithmetic_ofMishap _ mishap)
  | isZero =>
    obtain ⟨a, rfl⟩ := List.length_eq_one_iff.mp hlen
    simp [outcome, Instruction.operandKind, Summary.contextNeeded]
  | compare r =>
    obtain ⟨a, b, rfl⟩ := List.length_eq_two.mp hlen
    simp [outcome, Instruction.operandKind, Summary.contextNeeded]
  | eagerIf =>
    obtain ⟨condition, chosen, otherwise, rfl⟩ := List.length_eq_three.mp hlen
    simp [outcome, Instruction.operandKind, Summary.contextNeeded]
  | timeCmp =>
    obtain ⟨time, rfl⟩ := List.length_eq_one_iff.mp hlen
    obtain ⟨c, hc⟩ := Summary.operandFault?_comparator_eq_none.mp hoperand
    simp [outcome, hc, Instruction.operandKind, Summary.contextNeeded]
  | betweenTimestamps =>
    obtain ⟨first, last, rfl⟩ := List.length_eq_two.mp hlen
    simp [outcome, Instruction.operandKind, Summary.contextNeeded]
  | tierLevel =>
    obtain ⟨account, source, rfl⟩ := List.length_eq_two.mp hlen
    simp [outcome, Instruction.operandKind, Summary.contextNeeded]
  | hasMinTier =>
    obtain ⟨account, source, rfl⟩ := List.length_eq_two.mp hlen
    simp [outcome, Instruction.operandKind, Summary.contextNeeded]

theorem legalOperand_of_operandFault? {i : Instruction} {operand : UInt8} {depth offset : Nat}
    (hcount : ¬ (i.arity = .operand ∧ operand = 0))
    (hoperand : Summary.operandFault? constants.length depth i.operandKind operand offset = none) :
    LegalOperand i operand := by
  refine ⟨hcount, fun hkind => ?_⟩
  rw [hkind] at hoperand
  exact Option.isSome_iff_exists.mpr (Summary.operandFault?_comparator_eq_none.mp hoperand)

/-- An accepted instruction finds its values and room for its own; only its value can be missing. -/
theorem exec_of_step {s t : Summary} {i : Instruction} {operand : UInt8} {offset : Nat}
    (h : Summary.step constants.length s i operand offset = .ok t) (scene : Scene σ) {m : Machine σ}
    (hdepth : m.stack.depth = s.finalDepth) :
    ∃ (args : List Word) (below : Stack) (room : below.depth < Stack.limit),
      args.length = i.arity.inputs operand ∧
      m.stack.topFirst = args.reverse ++ below.topFirst ∧
      (exec scene constants i operand offset).perform m =
        let o := outcome scene constants offset m.stack.toList m.store i operand args
        match o.result with
        | .ok w => (.ok (), m.settle ⟨w :: below.topFirst, room⟩ o)
        | .error fault => (.error fault, m.settle below o) := by
  obtain ⟨hcount, hoperand, hinputs, hroom, -⟩ := Summary.step_eq_ok h
  obtain ⟨args, below, hlen, hstack⟩ := exists_args m.stack (hdepth ▸ hinputs)
  have hbelow := depth_of_args hstack
  have room : below.depth < Stack.limit := by omega
  have hlegal := legalOperand_of_operandFault? hcount hoperand
  refine ⟨args, below, room, hlen, hstack, ?_⟩
  rw [perform_exec hlegal hlen hstack]
  cases hresult : (outcome scene constants offset m.stack.toList m.store i operand args).result with
  | ok w =>
    simp only [hresult]
    exact perform_push (m := m.settle below _) room _ _
  | error fault => simp only [hresult]

/-! ## Code -/

/-- A machine at a point of a run up to which the analysis has found `s`. The steps are within the limit,
and all reads of the context so far within the context. -/
structure Matches (scene : Scene σ) (limit : Nat) (s : Summary) (m : Machine σ) : Prop where
  steps : m.steps = s.instructions
  depth : m.stack.depth = s.finalDepth
  depth_le : s.finalDepth ≤ s.maxDepth
  steps_le : s.instructions ≤ limit
  context_le : s.contextLen ≤ scene.context.length

/-- A fault that the summary `t` does not rule out. -/
def LeftOpen (scene : Scene σ) (limit : Nat) (t : Summary) (fault : Fault) : Prop :=
  fault.IsArithmetic ∨ scene.context.length < t.contextLen ∧ fault.IsContextRead ∨
    limit < t.instructions ∧ fault = .stepLimitExceeded limit

/-- With all the context and all the steps, arithmetic alone is left. -/
theorem LeftOpen.isArithmetic {t : Summary} {fault : Fault} (h : LeftOpen scene limit t fault)
    (hcontext : t.contextLen ≤ scene.context.length) (hlimit : t.instructions ≤ limit) : fault.IsArithmetic := by
  rcases h with harith | ⟨hshort, -⟩ | ⟨hshort, -⟩
  · exact harith
  · exact absurd hcontext (Nat.not_le.mpr hshort)
  · exact absurd hlimit (Nat.not_le.mpr hshort)

/-- What the summary `t` says of the end of a run. -/
def Foretold (scene : Scene σ) (limit : Nat) (t : Summary) : Except Fault Unit × Machine σ → Prop
  | (.ok _, m) => Matches scene limit t m
  | (.error fault, m) => m.stack.depth ≤ t.maxDepth ∧ LeftOpen scene limit t fault

theorem Foretold.depth_le {t : Summary} {r : Except Fault Unit × Machine σ}
    (h : Foretold scene limit t r) : r.2.stack.depth ≤ t.maxDepth := by
  rcases r with ⟨fault | _, m⟩
  · exact h.1
  · exact (Matches.depth h).trans_le (Matches.depth_le h)

theorem LeftOpen.mono {s t : Summary} {fault : Fault} (h : LeftOpen scene limit s fault)
    (hgrows : Summary.Grows s t) : LeftOpen scene limit t fault := by
  rcases h with h | ⟨h, hf⟩ | ⟨h, hf⟩
  · exact Or.inl h
  · exact Or.inr (Or.inl ⟨h.trans_le hgrows.contextLen, hf⟩)
  · exact Or.inr (Or.inr ⟨h.trans_le hgrows.instructions, hf⟩)

theorem foretold_exec {s t : Summary} {i : Instruction} {operand : UInt8} {offset : Nat}
    (h : Summary.step constants.length s i operand offset = .ok t) {m : Machine σ}
    (hm : Matches scene limit s m) (hlimit : s.instructions < limit) :
    Foretold scene limit t
      ((exec scene constants i operand offset).perform m.counted) := by
  obtain ⟨-, hoperand, hinputs, -, ht⟩ := Summary.step_eq_ok h
  obtain ⟨args, below, room, hlen, hstack, hexec⟩ :=
    exec_of_step h scene (m := m.counted) hm.depth
  have hbelow := depth_of_args hstack
  have hdepth : m.counted.stack.depth = s.finalDepth := hm.depth
  have hlist : m.counted.stack.toList.length = s.finalDepth := by
    rw [← hdepth, Stack.toList, List.length_reverse, Stack.depth]
  rw [← hlist] at hoperand
  have hvalue := outcome_of_operandFault? hoperand hlen scene m.counted.store
  rw [hdepth, hlen] at hbelow
  have hmax := hm.depth_le
  rw [hexec]
  dsimp only
  split
  · rename_i w hw
    rw [hw] at hvalue
    subst ht
    refine ⟨congrArg (· + 1) hm.steps, ?_, le_max_right _ _, hlimit, max_le hm.context_le hvalue⟩
    show below.depth + 1 = _
    dsimp only
    omega
  · rename_i fault hfault
    rw [hfault] at hvalue
    subst ht
    refine ⟨?_, ?_⟩
    · show below.depth ≤ max s.maxDepth _
      exact le_trans (by omega) (le_max_left s.maxDepth _)
    · rcases hvalue with hvalue | ⟨hlt, hread⟩
      · exact Or.inl hvalue
      · exact Or.inr (Or.inl ⟨hlt.trans_le (le_max_right _ _), hread⟩)

/-- Analysed code ends as its summary says, from any machine that the analysis so far describes. -/
theorem foretold_execFrom {source offset : Nat} {code : List UInt8} {s t : Summary}
    (h : Summary.extend constants.length s offset code = .ok t)
    (heven : code.length % Instruction.width = 0) {m : Machine σ} (hm : Matches scene limit s m) :
    Foretold scene limit t ((execFrom scene constants limit source offset code).perform m) := by
  fun_induction Summary.extend constants.length s offset code generalizing m with
  | case1 => cases h
  | case2 => cases h
  | case3 s offset opcode operand rest i hi s' hs ih =>
    have hgrows := Summary.grows_of_extend h
    by_cases hlimit : s.instructions < limit
    · have heven' : rest.length % Instruction.width = 0 := by
        simp only [List.length_cons, Instruction.width] at heven ⊢
        omega
      have hexec := foretold_exec hs hm hlimit
      rw [perform_execFrom_cons hi rest (hm.steps ▸ hlimit), Action.perform_bind]
      revert hexec
      rcases (exec scene constants i operand offset).perform m.counted with ⟨fault | _, m'⟩
      · intro hexec
        exact ⟨hexec.1.trans hgrows.maxDepth, hexec.2.mono hgrows⟩
      · intro hm'
        exact ih h heven' hm'
    · have hle : limit ≤ m.steps := by
        rw [hm.steps]
        exact Nat.not_lt.mp hlimit
      have hinstr : s.instructions + 1 ≤ t.instructions := by
        obtain ⟨-, -, -, -, rfl⟩ := Summary.step_eq_ok hs
        exact hgrows.instructions
      rw [perform_execFrom_over rest hle]
      refine ⟨?_, Or.inr (Or.inr ⟨by omega, rfl⟩)⟩
      show m.stack.depth ≤ t.maxDepth
      rw [hm.depth]
      exact hm.depth_le.trans ((Summary.grows_of_step hs).maxDepth.trans hgrows.maxDepth)
  | case4 code s offset hcode =>
    cases h
    rcases code with _ | ⟨opcode, _ | ⟨operand, rest⟩⟩
    · exact hm
    · cases heven
    · exact (hcode opcode operand rest rfl).elim

/-! ## Whole runs -/

theorem matches_fresh (m : Machine σ) : Matches scene limit .empty m.fresh :=
  ⟨rfl, rfl, Nat.le_refl 0, Nat.zero_le _, Nat.zero_le _⟩

theorem foretold_run {script : RawScript} {source : Nat} {t : Summary}
    (h : script.analyze source = .ok t) (hwhole : script.IsWhole source) (scene : Scene σ) (limit : Nat)
    (m : Machine σ) : Foretold scene limit t ((run script limit scene source).perform m) := by
  obtain ⟨code, hcode, hextend⟩ := RawScript.source_of_analyze h
  rw [perform_run hcode]
  exact foretold_execFrom hextend ((RawScript.isWhole_of_source hcode).mp hwhole) (matches_fresh m)

/-- A source that is not whole fails, whatever the analysis says of its instructions: it fails as they do, or for what is
behind them. -/
theorem run_of_stray {script : RawScript} {source : Nat} {t : Summary} (h : script.analyze source = .ok t)
    (hstray : ¬ script.IsWhole source) (scene : Scene σ) (limit : Nat) (m : Machine σ) :
    ∃ fault m', (run script limit scene source).perform m = (.error fault, m') ∧
      (LeftOpen scene limit t fault ∨
        fault = if t.instructions < limit then .unexpectedEnd source (Instruction.width * t.instructions)
          else .stepLimitExceeded limit) := by
  obtain ⟨code, hcode, hextend⟩ := RawScript.source_of_analyze h
  obtain ⟨whole, opcode, rfl, heven⟩ := RawScript.exists_stray_of_not_isWhole hcode hstray
  have hwhole : Summary.extend script.constants.length .empty 0 whole = .ok t := by
    rw [Summary.extend_append heven] at hextend
    cases hs : Summary.extend script.constants.length .empty 0 whole with
    | error fault =>
      rw [hs] at hextend
      cases hextend
    | ok s =>
      rw [hs] at hextend
      cases hextend
      rfl
  have hend : Foretold scene limit t ((execFrom scene script.constants limit source 0 whole).perform m.fresh) :=
    foretold_execFrom hwhole heven (matches_fresh m)
  rw [perform_run hcode, perform_execFrom_stray heven]
  rcases hrun : (execFrom scene script.constants limit source 0 whole).perform m.fresh with ⟨fault | _, n⟩
  · rw [hrun] at hend
    exact ⟨fault, n, rfl, Or.inl hend.2⟩
  · rw [hrun] at hend
    have hsteps : n.steps = t.instructions := hend.steps
    have hlength : 0 + whole.length = Instruction.width * t.instructions := by
      rw [Summary.instructions_of_extend hwhole]
      simp only [Summary.empty, Instruction.width] at heven ⊢
      omega
    exact ⟨_, n.counted, rfl, Or.inr (by rw [hsteps, hlength])⟩

theorem depth_runPrefix_le {script : Script} {source : Nat} {t : Summary}
    (h : script.analyze source = .ok t) (scene : Scene σ) (limit k : Nat) (m : Machine σ) :
    ((runPrefix script limit scene source k).perform m).2.stack.depth ≤ t.maxDepth := by
  obtain ⟨code, hcode, hextend⟩ := RawScript.source_of_analyze h
  have heven := (RawScript.isWhole_of_source hcode).mp (script.isWhole source)
  obtain ⟨s, hs, hgrows⟩ := Summary.extend_take hextend k
  have htake : (code.take (Instruction.width * k)).length % Instruction.width = 0 := by
    simp only [List.length_take, Instruction.width] at heven ⊢
    omega
  rw [perform_runPrefix hcode]
  exact (foretold_execFrom hs htake (matches_fresh m)).depth_le.trans hgrows.maxDepth

/-- **The analysis is sound.** With a context and a step limit of at least the sizes it reports, a run of the
source ends after exactly the reported steps with exactly the reported values, or for want of a value of some
arithmetic instruction; and the stack is never higher than reported. With less, no run comes to its end. -/
theorem run_of_analyze {script : Script} {source : Nat} {t : Summary}
    (h : script.analyze source = .ok t) (scene : Scene σ) (limit : Nat) (m : Machine σ) :
    (t.contextLen ≤ scene.context.length → t.instructions ≤ limit →
      (∀ k, ((runPrefix script limit scene source k).perform m).2.stack.depth ≤ t.maxDepth) ∧
      ((∃ m', (run script limit scene source).perform m = (.ok (), m') ∧
          m'.steps = t.instructions ∧ m'.stack.depth = t.finalDepth) ∨
        ∃ fault m', (run script limit scene source).perform m = (.error fault, m') ∧
          fault.IsArithmetic)) ∧
    (scene.context.length < t.contextLen ∨ limit < t.instructions →
      ∀ m', (run script limit scene source).perform m ≠ (.ok (), m')) := by
  have hend := foretold_run h (script.isWhole source) scene limit m
  constructor
  · intro hcontext hlimit
    refine ⟨fun k => depth_runPrefix_le h scene limit k m, ?_⟩
    rcases hrun : (run script limit scene source).perform m with ⟨fault | _, m'⟩
    · rw [hrun] at hend
      exact Or.inr ⟨fault, m', rfl, hend.2.isArithmetic hcontext hlimit⟩
    · rw [hrun] at hend
      exact Or.inl ⟨m', rfl, hend.steps, hend.depth⟩
  · intro hshort m' hok
    rw [hok] at hend
    rcases hshort with hlt | hlt
    · exact absurd hend.context_le (Nat.not_le.mpr hlt)
    · exact absurd hend.steps_le (Nat.not_le.mpr hlt)

/-- The quotient of the second value of the context by a constant. -/
def quotientScript : Script where
  sources := [[Instruction.context.opcode, 1, Instruction.constant.opcode, 0,
    (Instruction.aggregate .div).opcode, 2]]
  constants := [0]
  sources_ne_nil := by decide
  length_even := by decide
  length_constants_le := by decide

theorem run_of_analyze_quotientScript :
    quotientScript.analyze Script.entry = .ok ⟨3, 1, 2, 2⟩ ∧
      let r := (run quotientScript 3 ⟨Counters.zero.storage, .none, 0, [0, 1]⟩ Script.entry).perform
        (idle ())
      (∃ m', r = (.ok (), m') ∧ m'.steps = 3 ∧ m'.stack.depth = 1) ∨
        ∃ fault m', r = (.error fault, m') ∧ fault.IsArithmetic := by
  have h : quotientScript.analyze Script.entry = .ok ⟨3, 1, 2, 2⟩ := by decide
  exact ⟨h, ((run_of_analyze h _ 3 (idle ())).1 (by decide) (by decide)).2⟩

end Machine

end TokenSale
