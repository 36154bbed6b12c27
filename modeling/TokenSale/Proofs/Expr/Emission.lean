import TokenSale.Proofs.Assembly.Listing
import TokenSale.Proofs.Expr.Literals
import TokenSale.Proofs.Script.Rejection
import TokenSale.Sale.Pricing

/-!
# What expressions are compiled to

The operations of every expression, wherever they stand, put exactly one value on the stack (`nets_fragment`), unless the
analysis objects to one of them; and it objects for three reasons only (`Objection`). The invariant is `Nets`: operations
need some values and leave some in their place, whatever is below. It holds of each operation by what one step of the
analysis checks, it composes (`Nets.append`), and the rounds of a wide aggregate keep it (`nets_aggregateAll`).

The main statement is `Expr.ofExprs_emits`.
-/

namespace TokenSale

namespace Summary

variable {constants offset : Nat} {s t : Summary}

/-- In analysed code no instruction that counts its values counts none. -/
theorem count_ne_zero_of_extend {code : List (Instruction × UInt8)}
    (h : extend constants s offset (bytesOf code) = .ok t) :
    ∀ p ∈ code, ¬ (p.1.arity = .operand ∧ p.2 = 0) := by
  induction code generalizing s offset with
  | nil => exact List.forall_mem_nil _
  | cons p rest ih =>
    obtain ⟨i, s', hi, hs, hrest⟩ := extend_cons_eq_ok h
    obtain rfl : p.1 = i := Option.some.inj (p.1.ofOpcode?_opcode.symm.trans hi)
    exact List.forall_mem_cons.mpr ⟨(step_eq_ok hs).1, ih hrest⟩

end Summary

/-- The scripts that price a sale under the default step limit. -/
theorem Pricing.exists_ofScript_iff {script : RawScript} :
    (∃ p, Pricing.ofScript script = .ok p) ↔
      ∃ t, script.analyze Script.entry = .ok t ∧ t.finalDepth = outputWidth ∧ t.instructions ≤ defaultMaxSteps := by
  rw [ofScript, ofScriptWithin]
  split
  · rename_i fault hfault
    simp [hfault]
  · rename_i t ht
    simp only [ht, Except.ok.injEq, exists_eq_left']
    split
    · rename_i hdepth
      split
      · rename_i hsteps
        exact iff_of_true ⟨_, rfl⟩ ⟨hdepth, hsteps⟩
      · rename_i hsteps
        exact iff_of_false nofun fun h => hsteps h.2
    · rename_i hdepth
      exact iff_of_false nofun fun h => hdepth h.1

/-! ## Aggregates of nothing -/

/-- An aggregate that is to consume no values. -/
def Operation.foldsNothing : Operation → Bool
  | literal _ => false
  | instruction i operand => i.arity = .operand ∧ operand = 0

namespace Expr

/-- The instruction of an operation, when constants are given. -/
def placed (constants : List Word) : Operation → Instruction × UInt8
  | .literal w => (.constant, UInt8.ofNat (constants.idxOf w))
  | .instruction i operand => (i, operand)

theorem bytesOf_placed (constants : List Word) (ops : List Operation) :
    bytesOf (ops.map (placed constants)) = ops.flatMap (encode constants) := by
  rw [bytesOf, List.flatMap_map]
  congr 1
  funext op
  cases op <;> rfl

theorem foldsNothing_iff (constants : List Word) (op : Operation) :
    op.foldsNothing = true ↔ (placed constants op).1.arity = .operand ∧ (placed constants op).2 = 0 := by
  cases op with
  | literal w => simp [Operation.foldsNothing, placed, Instruction.arity]
  | instruction i operand => simp [Operation.foldsNothing, placed]

mutual

/-- Whether some aggregate in an expression has no operands. -/
def hasEmptyAggregate : Expr → Bool
  | constant _ | context _ | stack _ | storage _ | blockTimestamp | timeCmp _ _ | between _ _ => false
  | numberMinted e | isZero e | tierLevel _ e | hasMinTier _ e _ => hasEmptyAggregate e
  | aggregate _ operands => operands.isEmpty || anyHasEmptyAggregate operands
  | compare _ a b => hasEmptyAggregate a || hasEmptyAggregate b
  | ifElse condition chosen otherwise =>
    hasEmptyAggregate condition || hasEmptyAggregate chosen || hasEmptyAggregate otherwise

/-- Whether some aggregate in several expressions has no operands. -/
def anyHasEmptyAggregate : List Expr → Bool
  | [] => false
  | e :: rest => hasEmptyAggregate e || anyHasEmptyAggregate rest

end

theorem anyHasEmptyAggregate_eq_true_iff {es : List Expr} :
    anyHasEmptyAggregate es = true ↔ ∃ e ∈ es, e.hasEmptyAggregate = true := by
  induction es with
  | nil => simp [anyHasEmptyAggregate]
  | cons e rest ih => simp [anyHasEmptyAggregate, ih]

theorem foldsNothing_aggregate (op : Aggregate) {pending : Nat} (h : pending ≤ maxCount) :
    Operation.foldsNothing (.instruction (.aggregate op) (UInt8.ofNat pending)) = (pending == 0) := by
  rw [Operation.foldsNothing, Bool.eq_iff_iff, decide_eq_true_iff, beq_iff_eq, ← UInt8.toNat_inj,
    toNat_ofNat_of_le_maxCount h]
  exact and_iff_right rfl

theorem any_foldsNothing_aggregateAll (op : Aggregate) {pending : Nat} {es : List Expr} (h : Fits pending es) :
    (aggregateAll op pending (fragments es)).any Operation.foldsNothing =
      (pending == 0 && es.isEmpty || (fragments es).flatten.any Operation.foldsNothing) := by
  induction es generalizing pending with
  | nil =>
    rw [fragments, aggregateAll, List.any_cons, foldsNothing_aggregate op h.le]
    simp
  | cons e rest ih =>
    rcases aggregateAll_cons op h with ⟨hnext, hcode⟩ | ⟨⟨-, hnext⟩, hcode⟩
    · rw [hcode, fragments, List.flatten_cons, List.any_append, List.any_append, ih hnext]
      simp
    · rw [hcode, fragments, List.flatten_cons, List.any_append, List.any_cons, List.any_append, ih hnext,
        foldsNothing_aggregate op le_rfl]
      simp [maxCount]

mutual

theorem any_foldsNothing_fragment (e : Expr) :
    (fragment e).any Operation.foldsNothing = e.hasEmptyAggregate := by
  cases e with
  | constant | context | stack | storage | blockTimestamp | timeCmp | between => rfl
  | numberMinted e | isZero e =>
    rw [fragment, List.any_append, any_foldsNothing_fragment e, hasEmptyAggregate]
    exact Bool.or_false _
  | aggregate op operands =>
    rw [fragment, any_foldsNothing_aggregateAll op (fits_zero operands), any_foldsNothing_fragments operands,
      hasEmptyAggregate]
    rfl
  | compare r a b =>
    rw [fragment, List.any_append, List.any_append, any_foldsNothing_fragment a, any_foldsNothing_fragment b,
      hasEmptyAggregate]
    exact Bool.or_false _
  | ifElse condition chosen otherwise =>
    rw [fragment, List.any_append, List.any_append, List.any_append, any_foldsNothing_fragment condition,
      any_foldsNothing_fragment chosen, any_foldsNothing_fragment otherwise, hasEmptyAggregate]
    exact Bool.or_false _
  | tierLevel source e | hasMinTier source e =>
    rw [fragment, List.any_append, any_foldsNothing_fragment e, hasEmptyAggregate]
    exact Bool.or_false _

theorem any_foldsNothing_fragments (es : List Expr) :
    (fragments es).flatten.any Operation.foldsNothing = anyHasEmptyAggregate es := by
  cases es with
  | nil => rfl
  | cons e rest =>
    rw [fragments, List.flatten_cons, List.any_append, any_foldsNothing_fragment e, any_foldsNothing_fragments rest,
      anyHasEmptyAggregate]

end

/-! ## The effect of operations on the depth of the stack -/

/-- The faults that the analysis may find in compiled operations. That an aggregate consumes nothing is one only if
there is such an aggregate. -/
inductive Objection (empty : Prop) : Fault → Prop
  | count (site : Site) : empty → Objection empty (.invalidOperandCount site 0)
  | overflow (site : Site) : Objection empty (.stackOverflow site Stack.limit)
  | read (offset : Nat) {index : UInt8} {depth : Nat} : depth ≤ index.toNat →
      Objection empty (.stackReadOutOfBounds offset index depth)

/-- What the analysis comes to on operations that leave a number of values. -/
def Leaves (empty : Prop) (depth : Nat) : Except Fault Summary → Prop
  | .ok t => t.finalDepth = depth
  | .error fault => Objection empty fault

theorem Leaves.bind {empty : Prop} {depth depth' : Nat} {r : Except Fault Summary} (h : Leaves empty depth r)
    {next : Summary → Except Fault Summary} (hnext : ∀ t, t.finalDepth = depth → Leaves empty depth' (next t)) :
    Leaves empty depth' (r.bind next) := by
  cases r with
  | error fault => exact h
  | ok t => exact hnext t h

/-- Operations of a script that need so many values on the stack and leave so many in their place, whatever is below. -/
def Nets (whole : List Operation) (before after : Nat) (ops : List Operation) : Prop :=
  ops ⊆ whole → ∀ (s : Summary) (offset below : Nat), s.finalDepth = below + before →
    Leaves (whole.any Operation.foldsNothing = true) (below + after)
      (Summary.extend (pool whole).length s offset (ops.flatMap (encode (pool whole))))

variable {whole : List Operation}

theorem nets_nil (n : Nat) : Nets whole n n [] := fun _ _ _ _ hs => hs

theorem Nets.append {a b c : Nat} {ops rest : List Operation} (h : Nets whole a b ops) (h' : Nets whole b c rest) :
    Nets whole a c (ops ++ rest) := by
  intro hsub s offset below hs
  obtain ⟨hops, hrest⟩ := List.append_subset.mp hsub
  rw [List.flatMap_append, Summary.extend_append (even_length_encode _ ops)]
  exact (h hops s offset below hs).bind fun t ht => h' hrest t _ below ht

/-- More values may lie below. -/
theorem Nets.above {before after : Nat} {ops : List Operation} (h : Nets whole before after ops) (more : Nat) :
    Nets whole (more + before) (more + after) ops := by
  intro hsub s offset below hs
  rw [← Nat.add_assoc] at hs ⊢
  exact h hsub s offset (below + more) hs

/-- One operation. The stack may be too full for it, and its operand may be at fault; it is not at fault for its inputs. -/
theorem nets_singleton (op : Operation)
    (hoperand : op ∈ whole → ∀ depth offset fault,
      Summary.operandFault? (pool whole).length depth (placed (pool whole) op).1.operandKind (placed (pool whole) op).2
        offset = some fault → Objection (whole.any Operation.foldsNothing = true) fault) :
    Nets whole ((placed (pool whole) op).1.arity.inputs (placed (pool whole) op).2) 1 [op] := by
  intro hsub s offset below hs
  have hmem : op ∈ whole := hsub List.mem_cons_self
  have hcode : [op].flatMap (encode (pool whole)) = bytesOf [placed (pool whole) op] := (bytesOf_placed _ _).symm
  rw [hcode, bytesOf_cons]
  generalize hplaced : placed (pool whole) op = p at hs hoperand
  obtain ⟨i, operand⟩ := p
  simp only [Summary.extend, Instruction.ofOpcode?_opcode]
  cases hstep : Summary.step (pool whole).length s i operand offset with
  | ok t =>
    obtain ⟨-, -, -, -, rfl⟩ := Summary.step_eq_ok hstep
    show s.finalDepth - _ + 1 = below + 1
    rw [hs, Nat.add_sub_cancel]
  | error fault =>
    show Objection _ fault
    cases Summary.refuses_of_step hstep with
    | count h =>
      rw [h.2]
      refine .count _ (List.any_eq_true.mpr ⟨op, hmem, (foldsNothing_iff (pool whole) op).mpr ?_⟩)
      rwa [hplaced]
    | operand _ h => exact hoperand hmem _ _ _ h
    | underflow _ _ h => exact absurd h (by rw [hs]; exact Nat.not_lt.mpr (Nat.le_add_left _ _))
    | overflow _ _ _ _ => exact .overflow _

/-- An instruction whose operand is never at fault. -/
theorem nets_instruction {i : Instruction} {operand : UInt8}
    (hoperand : ∀ depth offset,
      Summary.operandFault? (pool whole).length depth i.operandKind operand offset = none) :
    Nets whole (i.arity.inputs operand) 1 [.instruction i operand] := by
  refine nets_singleton (.instruction i operand) fun _ depth offset fault h => ?_
  rw [placed, hoperand] at h
  cases h

theorem nets_literal (hle : (pool whole).length ≤ maxConstants) (w : Word) : Nets whole 0 1 [.literal w] := by
  refine nets_singleton (.literal w) fun hmem depth offset fault h => ?_
  have hconstant : w ∈ pool whole := mem_distinct.mpr (List.mem_filterMap.mpr ⟨_, hmem, rfl⟩)
  have hlt := List.idxOf_lt_length_of_mem hconstant
  have hnat := toNat_ofNat_idxOf hconstant hle
  rw [placed, Instruction.operandKind, Summary.operandFault?_constant_eq_none.mpr (hnat.trans_lt hlt)] at h
  cases h

theorem nets_stack (index : UInt8) : Nets whole 0 1 [.instruction .stack index] := by
  refine nets_singleton (.instruction .stack index) fun _ depth offset fault h => ?_
  by_cases hlt : index.toNat < depth
  · rw [placed, Instruction.operandKind, Summary.operandFault?_stackIndex_eq_none.mpr hlt] at h
    cases h
  · rw [placed, Instruction.operandKind, Summary.operandFault?, if_neg hlt] at h
    cases h
    exact .read offset (Nat.not_lt.mp hlt)

theorem nets_storage (slot : Slot) : Nets whole 0 1 [.instruction .storage slot.code] :=
  nets_instruction fun _ _ => Summary.operandFault?_slot_eq_none.mpr ⟨slot, slot.ofCode?_code⟩

theorem nets_timeCmp (c : Comparator) : Nets whole 1 1 [.instruction .timeCmp c.code] :=
  nets_instruction fun _ _ => Summary.operandFault?_comparator_eq_none.mpr ⟨c, c.ofCode?_code⟩

/-- A round of an aggregate of values that are there. -/
theorem nets_aggregate (op : Aggregate) {n : Nat} (h : n ≤ maxCount) :
    Nets whole n 1 [.instruction (.aggregate op) (UInt8.ofNat n)] := by
  have hnets : Nets whole (UInt8.ofNat n).toNat 1 [.instruction (.aggregate op) (UInt8.ofNat n)] :=
    nets_instruction fun _ _ => rfl
  rwa [toNat_ofNat_of_le_maxCount h] at hnets

mutual

/-- The operations of an expression put one value on the stack. -/
theorem nets_fragment (hle : (pool whole).length ≤ maxConstants) (e : Expr) : Nets whole 0 1 (fragment e) := by
  cases e with
  | constant w => exact nets_literal hle w
  | context index => exact nets_instruction fun _ _ => rfl
  | stack index => exact nets_stack index
  | storage slot => exact nets_storage slot
  | blockTimestamp => exact nets_instruction fun _ _ => rfl
  | numberMinted e => exact (nets_fragment hle e).append (nets_instruction fun _ _ => rfl)
  | isZero e => exact (nets_fragment hle e).append (nets_instruction fun _ _ => rfl)
  | aggregate op operands => exact nets_aggregateAll hle op (fits_zero operands)
  | compare r a b =>
    have hboth := (nets_fragment hle a).append ((nets_fragment hle b).above 1)
    have hcompare : Nets whole 2 1 [.instruction (.compare r) 0] := nets_instruction fun _ _ => rfl
    exact hboth.append hcompare
  | ifElse condition chosen otherwise =>
    have hboth := (nets_fragment hle condition).append ((nets_fragment hle chosen).above 1)
    have hall := hboth.append ((nets_fragment hle otherwise).above 2)
    have hchoose : Nets whole 3 1 [.instruction .eagerIf 0] := nets_instruction fun _ _ => rfl
    exact hall.append hchoose
  | timeCmp time c => exact (nets_literal hle (.ofUInt64 time)).append (nets_timeCmp c)
  | between first last =>
    have hboth := (nets_literal hle (.ofUInt64 first)).append ((nets_literal hle (.ofUInt64 last)).above 1)
    have hbetween : Nets whole 2 1 [.instruction .betweenTimestamps 0] := nets_instruction fun _ _ => rfl
    exact hboth.append hbetween
  | tierLevel source e =>
    have hlevel : Nets whole 2 1 [.instruction .tierLevel 0] := nets_instruction fun _ _ => rfl
    exact (nets_fragment hle e).append (((nets_literal hle source.toWord).above 1).append hlevel)
  | hasMinTier source e least =>
    have hleast : Nets whole 2 1 [.instruction .hasMinTier least] := nets_instruction fun _ _ => rfl
    exact (nets_fragment hle e).append (((nets_literal hle source.toWord).above 1).append hleast)

theorem nets_aggregateAll (hle : (pool whole).length ≤ maxConstants) (op : Aggregate) {pending : Nat} {es : List Expr}
    (h : Fits pending es) : Nets whole pending 1 (aggregateAll op pending (fragments es)) := by
  cases es with
  | nil => exact nets_aggregate op h.le
  | cons e rest =>
    have hnext := (nets_fragment hle e).above pending
    rcases aggregateAll_cons op h with ⟨hrest, hcode⟩ | ⟨⟨hfull, hrest⟩, hcode⟩
    · rw [hcode]
      exact hnext.append (nets_aggregateAll hle op hrest)
    · rw [hcode]
      rw [hfull] at hnext
      exact hnext.append ((nets_aggregate op le_rfl).append (nets_aggregateAll hle op hrest))

end

theorem nets_fragments (hle : (pool whole).length ≤ maxConstants) (es : List Expr) :
    Nets whole 0 es.length (fragments es).flatten := by
  induction es with
  | nil => exact nets_nil 0
  | cons e rest ih =>
    have hrest := ih.above 1
    rw [Nat.add_comm 1 rest.length] at hrest
    exact (nets_fragment hle e).append hrest

/-- What is true of every script that expressions are compiled to. -/
structure Emitted (es : List Expr) (script : Script) : Prop where
  constants : ListsFirstUses (literalsOfAll es) script.constants
  /-- Every aggregate counts from one value to as many as an operand can. -/
  counts : ∃ instructions, script.sources = [bytesOf instructions] ∧
    ∀ p ∈ instructions, p.1.arity = .operand → 1 ≤ p.2.toNat ∧ p.2.toNat ≤ 255
  operands : ∀ e ∈ es, e.hasEmptyAggregate = false
  depth : ∃ t, script.analyze Script.entry = .ok t ∧ t.finalDepth = es.length

/-- The analysis of the script of expressions. -/
theorem leaves_analyze {es : List Expr} (hle : (pool (fragments es).flatten).length ≤ maxConstants) :
    Leaves (∃ e ∈ es, e.hasEmptyAggregate = true) es.length
      ((Script.ofOperations (fragments es).flatten hle).analyze Script.entry) := by
  have hleaves := nets_fragments hle es (List.Subset.refl _) .empty 0 0 rfl
  rwa [any_foldsNothing_fragments, anyHasEmptyAggregate_eq_true_iff, Nat.zero_add,
    ← Script.analyze_ofOperations hle] at hleaves

theorem emitted_of_ofExprs {es : List Expr} {script : Script} (h : Script.ofExprs es = .ok script) :
    Emitted es script := by
  obtain ⟨hle, t, rfl, hanalyze⟩ := ofExprs_eq_ok h
  have hleaves := leaves_analyze hle
  rw [hanalyze] at hleaves
  have hextend := hanalyze
  rw [Script.analyze_ofOperations, ← bytesOf_placed] at hextend
  have hcounts := Summary.count_ne_zero_of_extend hextend
  refine ⟨listsFirstUses_pool es, ⟨_, congrArg ([·]) (bytesOf_placed _ _).symm, ?_⟩, ?_, t, hanalyze, hleaves⟩
  · intro p hp harity
    refine ⟨Nat.pos_of_ne_zero fun hzero => ?_, Nat.le_of_lt_succ p.2.toNat_lt⟩
    exact hcounts p hp ⟨harity, UInt8.toNat_inj.mp hzero⟩
  · intro e he
    by_contra hempty
    have hany := anyHasEmptyAggregate_eq_true_iff.mpr ⟨e, he, Bool.eq_true_of_not_eq_false hempty⟩
    rw [← any_foldsNothing_fragments] at hany
    obtain ⟨op, hop, hnothing⟩ := List.any_eq_true.mp hany
    exact hcounts _ (List.mem_map_of_mem hop) ((foldsNothing_iff _ op).mp hnothing)

theorem ofExprs_eq_error {es : List Expr} {fault : Fault} (h : Script.ofExprs es = .error fault) :
    256 < (literalsOfAll es).toFinset.card ∧ fault = .tooManyConstants (literalsOfAll es).toFinset.card 256 ∨
      Objection (∃ e ∈ es, e.hasEmptyAggregate = true) fault := by
  rw [← length_pool]
  rcases Nat.lt_or_ge maxConstants (pool (fragments es).flatten).length with hlt | hle
  · rw [ofExprs_of_lt hlt] at h
    cases h
    exact Or.inl ⟨hlt, rfl⟩
  · have hleaves := leaves_analyze hle
    rw [ofExprs_of_le hle] at h
    cases hanalyze : (Script.ofOperations _ hle).analyze Script.entry with
    | ok t =>
      rw [hanalyze] at h
      cases h
    | error fault' =>
      rw [hanalyze] at h hleaves
      cases h
      exact Or.inr hleaves

/-- **What expressions are compiled to.** There is no script exactly for more than 256 distinct literals, or if the
analysis objects, for one of three reasons. A script that there is has each literal once among its constants, in the order
of first use, aggregates of one to 255 values, and a source that leaves one value for each expression. So the script of a
pair prices a sale exactly if it has no more instructions than a run may take. -/
theorem ofExprs_emits (es : List Expr) :
    ((∃ count max, Script.ofExprs es = .error (.tooManyConstants count max)) ↔
        256 < (literalsOfAll es).toFinset.card) ∧
      (∀ fault, Script.ofExprs es = .error fault →
        fault = .tooManyConstants (literalsOfAll es).toFinset.card 256 ∨
          Objection (∃ e ∈ es, e.hasEmptyAggregate = true) fault) ∧
      (∀ script, Script.ofExprs es = .ok script → Emitted es script) ∧
      ∀ maxUnits unitPrice script, Script.ofPair maxUnits unitPrice = .ok script →
        ((∃ p, Pricing.ofScript script = .ok p) ↔ script.instructionCount Script.entry ≤ 4096) := by
  refine ⟨⟨?_, ?_⟩, ?_, fun script => emitted_of_ofExprs, ?_⟩
  · rintro ⟨count, max, h⟩
    rcases ofExprs_eq_error h with ⟨hlt, -⟩ | hobjection
    · exact hlt
    · cases hobjection
  · intro hlt
    rw [← length_pool] at hlt
    exact ⟨_, _, ofExprs_of_lt hlt⟩
  · intro fault h
    exact (ofExprs_eq_error h).imp_left And.right
  · intro maxUnits unitPrice script h
    obtain ⟨t, hanalyze, hdepth⟩ := (emitted_of_ofExprs h).depth
    rw [Pricing.exists_ofScript_iff, ← RawScript.instructions_of_analyze hanalyze]
    simp only [hanalyze, Except.ok.injEq, exists_eq_left']
    exact and_iff_right hdepth

/-- The count of nothing is found first, though the stack is read past its end after it. -/
example : Script.ofExprs [.aggregate .add [], .stack 1] = .error (.invalidOperandCount ⟨"ADD", 0⟩ 0) := by rfl

end Expr

end TokenSale
