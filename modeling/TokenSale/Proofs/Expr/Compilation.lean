import TokenSale.Expr.Compile
import TokenSale.Proofs.Expr.Denotation
import TokenSale.Proofs.Script.Analysis

/-!
# Compiled expressions compute their values

The proof has two halves, joined by `runAll?`, which performs operations on a list of values without any bound and
without telling faults apart.

* `runAll?_fragment`: the operations of an expression put its value on any list of values, and nothing else. This is
  an induction on the expression; the rounds of a wide aggregate are `runAll?_aggregateAll`.
* `execFrom_encode`: on analysed code the machine does what `runAll?` does. Which faults it can meet is known from
  the analysis.

`run_ofExprs` puts the halves together for the script of several expressions.
-/

namespace TokenSale

namespace Operation

/-- What an operation does to a list of values, the top first. -/
def run? (scene : Scene Unit) (constants : List Word) : Operation → List Word → Option (List Word)
  | literal w, values => some (w :: values)
  | instruction i operand, values =>
    let n := i.arity.inputs operand
    if i.arity = .operand ∧ operand = 0 ∨ values.length < n then none
    else
      let o := Machine.outcome scene constants 0 values.reverse () i operand (values.take n).reverse
      o.result.toOption.map (· :: values.drop n)

/-- What operations do to a list of values, one after the other. -/
def runAll? (scene : Scene Unit) (constants : List Word) (ops : List Operation) (values : List Word) :
    Option (List Word) :=
  ops.foldlM (fun values op => op.run? scene constants values) values

variable {scene : Scene Unit} {constants : List Word}

theorem runAll?_append (ops rest : List Operation) (values : List Word) :
    runAll? scene constants (ops ++ rest) values =
      (runAll? scene constants ops values).bind (runAll? scene constants rest) :=
  List.foldlM_append

theorem runAll?_singleton (op : Operation) (values : List Word) :
    runAll? scene constants [op] values = op.run? scene constants values := by
  simp [runAll?]

theorem runAll?_cons (op : Operation) (ops : List Operation) (values : List Word) :
    runAll? scene constants (op :: ops) values =
      (op.run? scene constants values).bind (runAll? scene constants ops) :=
  List.foldlM_cons

theorem runAll?_literal (w : Word) (ops : List Operation) (values : List Word) :
    runAll? scene constants (literal w :: ops) values = runAll? scene constants ops (w :: values) :=
  rfl

theorem run?_instruction {i : Instruction} {operand : UInt8} {args : List Word}
    (hcount : ¬ (i.arity = .operand ∧ operand = 0)) (hlen : args.length = i.arity.inputs operand)
    (values : List Word) :
    (instruction i operand).run? scene constants (args.reverse ++ values) =
      (Machine.outcome scene constants 0 (args.reverse ++ values).reverse () i operand
        args).result.toOption.map (· :: values) := by
  have hlt : ¬ (args.reverse ++ values).length < i.arity.inputs operand := by
    rw [List.length_append, List.length_reverse]
    omega
  have hlen' : args.reverse.length = i.arity.inputs operand := by rw [List.length_reverse, hlen]
  simp only [run?, hcount, hlt, or_self, if_false, List.take_left' hlen', List.drop_left' hlen',
    List.reverse_reverse]

theorem run?_fixed (scene : Scene Unit) (constants : List Word) (i : Instruction) (operand : UInt8)
    (args values : List Word) (h : i.arity = .fixed args.length) :
    (instruction i operand).run? scene constants (args.reverse ++ values) =
      (Machine.outcome scene constants 0 (args.reverse ++ values).reverse () i operand
        args).result.toOption.map (· :: values) := by
  refine run?_instruction (fun hcount => ?_) (by rw [h]; rfl) values
  rw [h] at hcount
  cases hcount.1

end Operation

namespace Expr

open Operation

variable {s : Surroundings} {constants : List Word}

/-- A count that an operand can have. -/
theorem toNat_ofNat_of_le_maxCount {n : Nat} (h : n ≤ maxCount) : (UInt8.ofNat n).toNat = n :=
  UInt8.toNat_ofNat_of_lt (Nat.lt_succ_of_le h)

/-- The place of a constant is one that an operand can name. -/
theorem toNat_ofNat_idxOf {w : Word} (h : w ∈ constants) (hle : constants.length ≤ maxConstants) :
    (UInt8.ofNat (constants.idxOf w)).toNat = constants.idxOf w :=
  UInt8.toNat_ofNat_of_lt ((List.idxOf_lt_length_of_mem h).trans_le hle)

/-- A round of an aggregate, when its operands are on the list. -/
theorem run?_aggregate (op : Aggregate) {args : List Word} (hne : args ≠ [])
    (hle : args.length ≤ maxCount) (scene : Scene Unit) (constants values : List Word) :
    (instruction (.aggregate op) (UInt8.ofNat args.length)).run? scene constants
        (args.reverse ++ values) = (op.fold? args).map (· :: values) := by
  have hnat := toNat_ofNat_of_le_maxCount hle
  have hcount : ¬ (Instruction.arity (.aggregate op) = .operand ∧ UInt8.ofNat args.length = 0) := by
    rintro ⟨-, hzero⟩
    rw [hzero] at hnat
    exact hne (List.eq_nil_of_length_eq_zero hnat.symm)
  rw [run?_instruction hcount hnat.symm, Aggregate.fold?_eq_eval op hne]
  simp only [Machine.outcome]
  cases op.eval args <;> rfl

theorem mem_literals_cons {op : Operation} {rest : List Operation} {w : Word} (h : w ∈ literals rest) :
    w ∈ literals (op :: rest) := by
  rw [literals, List.filterMap_cons]
  split
  · exact h
  · exact List.mem_cons_of_mem _ h

theorem fragments_eq_nil_iff {es : List Expr} : fragments es = [] ↔ es = [] := by
  cases es <;> simp [fragments]

/-- How many values may be there when an aggregate comes to the operands left: fewer than an operand can count, unless
none is left. -/
def Fits (pending : Nat) (left : List Expr) : Prop := pending < maxCount ∨ pending = maxCount ∧ left = []

theorem fits_zero (es : List Expr) : Fits 0 es := Or.inl (by decide)

theorem Fits.le {pending : Nat} {left : List Expr} (h : Fits pending left) : pending ≤ maxCount :=
  h.elim Nat.le_of_lt fun h => h.1.le

/-- An aggregate goes on with the next operand. A round that is full then leaves one value to the next round. -/
theorem aggregateAll_cons (op : Aggregate) {pending : Nat} {e : Expr} {rest : List Expr}
    (h : Fits pending (e :: rest)) :
    Fits (pending + 1) rest ∧
        aggregateAll op pending (fragments (e :: rest)) =
          fragment e ++ aggregateAll op (pending + 1) (fragments rest) ∨
      (pending + 1 = maxCount ∧ Fits 1 rest) ∧
        aggregateAll op pending (fragments (e :: rest)) =
          fragment e ++ .instruction (.aggregate op) (UInt8.ofNat maxCount) :: aggregateAll op 1 (fragments rest) := by
  have hlt : pending < maxCount := h.resolve_right fun h => by cases h.2
  rw [fragments, aggregateAll]
  split
  · rename_i hround
    exact Or.inr ⟨⟨hround.1, Or.inl (by decide)⟩, rfl⟩
  · rename_i hround
    refine Or.inl ⟨?_, rfl⟩
    by_cases hmax : pending + 1 = maxCount
    · refine Or.inr ⟨hmax, ?_⟩
      by_contra hrest
      exact hround ⟨hmax, fun hnil => hrest (fragments_eq_nil_iff.mp hnil)⟩
    · exact Or.inl (by omega)

theorem resolve_fst (s : Surroundings) (source account : Address) :
    (s.tiers.resolve source account).1 = s.tier source account := by
  simp only [TierOracle.resolve, Surroundings.tier]
  cases s.tiers source account <;> rfl

theorem ofUInt64_le_iff (a b : UInt64) : Word.ofUInt64 a ≤ Word.ofUInt64 b ↔ a ≤ b :=
  UInt64.le_iff_toNat_le.symm

mutual

/-- The operations of an expression put its value on the list. -/
theorem runAll?_fragment (e : Expr) (hfree : e.stackFree = true) (values : List Word) :
    runAll? s.scene constants (fragment e) values = (e.denote s).map (· :: values) := by
  cases e with
  | constant w => rfl
  | context index =>
    rw [fragment, denote, runAll?_singleton]
    refine (run?_fixed s.scene constants .context index [] values rfl).trans ?_
    simp only [Machine.outcome, Surroundings.scene]
    cases s.context[index.toNat]? <;> rfl
  | stack index => cases hfree
  | storage slot =>
    rw [fragment, denote, runAll?_singleton]
    refine (run?_fixed s.scene constants .storage slot.code [] values rfl).trans ?_
    simp only [Machine.outcome, Slot.ofCode?_code]
    rfl
  | blockTimestamp => rfl
  | numberMinted account =>
    rw [fragment, runAll?_append, runAll?_fragment account hfree, denote]
    cases account.denote s <;> rfl
  | aggregate op operands =>
    rw [fragment, denote]
    refine (runAll?_aggregateAll op operands hfree [] (fits_zero operands) values).trans ?_
    simp only [List.nil_append]
    cases denoteAll s operands <;> rfl
  | isZero value =>
    rw [fragment, runAll?_append, runAll?_fragment value hfree, denote]
    cases value.denote s <;> rfl
  | compare r a b =>
    obtain ⟨ha, hb⟩ := Bool.and_eq_true_iff.mp hfree
    rw [fragment, runAll?_append, runAll?_append, runAll?_fragment a ha, denote]
    cases a.denote s with
    | none => rfl
    | some x =>
      simp only [Option.map_some, Option.bind_some, runAll?_fragment b hb]
      cases b.denote s <;> rfl
  | ifElse condition chosen otherwise =>
    obtain ⟨h, hz⟩ := Bool.and_eq_true_iff.mp hfree
    obtain ⟨hx, hy⟩ := Bool.and_eq_true_iff.mp h
    rw [fragment, runAll?_append, runAll?_append, runAll?_append, runAll?_fragment condition hx,
      denote]
    cases condition.denote s with
    | none => rfl
    | some x =>
      simp only [Option.map_some, Option.bind_some, runAll?_fragment chosen hy]
      cases chosen.denote s with
      | none => rfl
      | some y =>
        simp only [Option.map_some, Option.bind_some, runAll?_fragment otherwise hz]
        cases otherwise.denote s <;> rfl
  | timeCmp time c =>
    have h := run?_fixed s.scene constants .timeCmp c.code [.ofUInt64 time] values rfl
    simp only [Machine.outcome, Comparator.ofCode?_code] at h
    rw [fragment, runAll?_literal, runAll?_singleton]
    exact h
  | between first last =>
    have h := run?_fixed s.scene constants .betweenTimestamps 0 [.ofUInt64 first, .ofUInt64 last]
      values rfl
    simp only [Machine.outcome, ofUInt64_le_iff] at h
    exact h
  | tierLevel source account =>
    rw [fragment, runAll?_append, runAll?_fragment account hfree, denote]
    cases account.denote s with
    | none => rfl
    | some a =>
      have h := run?_fixed s.scene constants .tierLevel 0 [a, source.toWord] values rfl
      simp only [Machine.outcome, Surroundings.scene, Address.ofWord_toWord, resolve_fst] at h
      exact h
  | hasMinTier source account least =>
    rw [fragment, runAll?_append, runAll?_fragment account hfree, denote]
    cases account.denote s with
    | none => rfl
    | some a =>
      have h := run?_fixed s.scene constants .hasMinTier least [a, source.toWord] values rfl
      simp only [Machine.outcome, Surroundings.scene, Address.ofWord_toWord, resolve_fst,
        UInt32.le_iff_toNat_le, UInt8.toNat_toUInt32] at h
      exact h

/-- The operations of an aggregate fold the values that are there and those of the operands, the former the
first. A round ends when there are as many values as an operand can count. -/
theorem runAll?_aggregateAll (op : Aggregate) (es : List Expr) (hfree : allStackFree es = true)
    (args : List Word) (hargs : Fits args.length es) (values : List Word) :
    runAll? s.scene constants (aggregateAll op args.length (fragments es)) (args.reverse ++ values) =
      (denoteAll s es).bind fun ws => (op.fold? (args ++ ws)).map (· :: values) := by
  cases es with
  | nil =>
    simp only [fragments, aggregateAll, runAll?_singleton, denoteAll, Option.bind_some,
      List.append_nil]
    by_cases hne : args = []
    · subst hne
      rfl
    · exact run?_aggregate op hne hargs.le s.scene constants values
  | cons e rest =>
    obtain ⟨he, hrest⟩ := Bool.and_eq_true_iff.mp hfree
    have hlen (w : Word) : (args ++ [w]).length = args.length + 1 := by simp
    have hne (w : Word) : args ++ [w] ≠ [] := by simp
    have hall (w : Word) : (do let w ← some w; let ws ← denoteAll s rest; pure (w :: ws)).bind
        (fun ws => (op.fold? (args ++ ws)).map (· :: values)) =
        (denoteAll s rest).bind fun ws => (op.fold? (args ++ [w] ++ ws)).map (· :: values) := by
      cases denoteAll s rest with
      | none => rfl
      | some ws => simp
    have hstack (w : Word) : w :: (args.reverse ++ values) = (args ++ [w]).reverse ++ values := by simp
    rw [denoteAll]
    rcases aggregateAll_cons op hargs with ⟨hnext, hcode⟩ | ⟨⟨hfull, hnext⟩, hcode⟩
    · rw [hcode, runAll?_append, runAll?_fragment e he]
      cases e.denote s with
      | none => rfl
      | some w =>
        rw [← hlen w] at hnext
        have ih := runAll?_aggregateAll op rest hrest (args ++ [w]) hnext values
        rw [hlen, ← hstack] at ih
        simp only [Option.map_some, Option.bind_some, ih, hall]
    · -- the round is full: its value is the first of the next round
      rw [hcode, runAll?_append, runAll?_fragment e he]
      cases e.denote s with
      | none => rfl
      | some w =>
        have hle : (args ++ [w]).length ≤ maxCount := by rw [hlen]; exact hfull.le
        have hround := run?_aggregate op (hne w) hle s.scene constants values
        rw [hlen, hfull, ← hstack] at hround
        simp only [Option.map_some, Option.bind_some, runAll?_cons, hround, hall]
        cases hfold : op.fold? (args ++ [w]) with
        | none =>
          simp only [Aggregate.fold?_append op (hne w), hfold, Option.map_none, Option.bind_none]
          cases denoteAll s rest <;> rfl
        | some v =>
          have ih := runAll?_aggregateAll op rest hrest [v] hnext values
          simp only [Aggregate.fold?_append op (hne w), hfold, Option.map_some, Option.bind_some]
          exact ih

end

theorem runAll?_fragments (es : List Expr) (hfree : ∀ e ∈ es, e.stackFree = true) (values : List Word) :
    runAll? s.scene constants (fragments es).flatten values =
      (denoteAll s es).map fun ws => ws.reverse ++ values := by
  induction es generalizing values with
  | nil => rfl
  | cons e rest ih =>
    obtain ⟨he, hrest⟩ := List.forall_mem_cons.mp hfree
    rw [fragments, List.flatten_cons, runAll?_append, runAll?_fragment e he, denoteAll]
    cases e.denote s with
    | none => rfl
    | some w =>
      simp only [Option.map_some, Option.bind_some, ih hrest]
      cases denoteAll s rest with
      | none => rfl
      | some ws => simp

end Expr

/-! ## Operations on the machine -/

namespace Machine

variable {scene : Scene Unit} {constants : List Word} {limit source offset : Nat}

/-- The values that a run leaves if it comes to its end, the top first. -/
def valuesLeft (r : Except Fault Unit × Machine Unit) : Option (List Word) :=
  r.1.toOption.map fun _ => r.2.stack.topFirst

theorem toOption_orFault (fault : Fault) (value : Option Word) :
    (orFault fault value).toOption = value := by
  cases value <;> rfl

theorem toOption_mapError {ε δ α : Type} (f : ε → δ) (r : Except ε α) :
    (r.mapError f).toOption = r.toOption := by
  cases r <;> rfl

theorem toOption_outcome (offset : Nat) (stack : List Word) (i : Instruction) (operand : UInt8)
    (args : List Word) :
    (outcome scene constants offset stack () i operand args).result.toOption =
      (outcome scene constants 0 stack () i operand args).result.toOption := by
  cases i with
  | constant => simp only [outcome, toOption_orFault]
  | stack => simp only [outcome, toOption_orFault]
  | context => simp only [outcome, toOption_orFault]
  | aggregate op => simp only [outcome, toOption_mapError]
  | storage =>
    simp only [outcome]
    cases Slot.ofCode? operand <;> rfl
  | timeCmp =>
    unfold outcome
    cases Comparator.ofCode? operand <;> rcases args with _ | ⟨_, _ | _⟩ <;> rfl
  | blockTimestamp => rfl
  | numberMinted | isZero => rcases args with _ | ⟨_, _ | _⟩ <;> rfl
  | compare | betweenTimestamps | tierLevel | hasMinTier =>
    rcases args with _ | ⟨_, _ | ⟨_, _ | _⟩⟩ <;> rfl
  | eagerIf => rcases args with _ | ⟨_, _ | ⟨_, _ | ⟨_, _ | _⟩⟩⟩ <;> rfl

theorem valuesLeft_exec {s t : Summary} {i : Instruction} {operand : UInt8}
    (h : Summary.step constants.length s i operand offset = .ok t) (scene : Scene Unit)
    {m : Machine Unit}
    (hdepth : m.stack.depth = s.finalDepth) :
    valuesLeft ((exec scene constants i operand offset).perform m) =
      (Operation.instruction i operand).run? scene constants m.stack.topFirst := by
  obtain ⟨args, below, room, hlen, hstack, hexec⟩ := exec_of_step h scene hdepth
  have hlist : m.stack.toList = (args.reverse ++ below.topFirst).reverse := by
    rw [Stack.toList, hstack]
  rw [hexec, hstack, Operation.run?_instruction (Summary.step_eq_ok h).1 hlen,
    ← toOption_outcome offset, ← hlist]
  simp only
  cases (outcome scene constants offset m.stack.toList m.store i operand args).result <;> rfl

/-- Every operation is one instruction, if its literal is among the constants. -/
theorem exists_instruction {op : Operation} (hop : ∀ w, op = .literal w → w ∈ constants)
    (hle : constants.length ≤ maxConstants) (scene : Scene Unit) :
    ∃ i operand, Expr.encode constants op = [i.opcode, operand] ∧ ∀ values,
      (Operation.instruction i operand).run? scene constants values = op.run? scene constants values := by
  cases op with
  | instruction i operand => exact ⟨i, operand, rfl, fun _ => rfl⟩
  | literal w =>
    have hmem : w ∈ constants := hop w rfl
    have hlt : constants.idxOf w < constants.length := List.idxOf_lt_length_of_mem hmem
    have hnat := Expr.toNat_ofNat_idxOf hmem hle
    refine ⟨.constant, UInt8.ofNat (constants.idxOf w), rfl, fun values => ?_⟩
    refine (Operation.run?_fixed scene constants .constant _ [] values rfl).trans ?_
    simp only [outcome, hnat, List.getElem?_eq_getElem hlt, List.getElem_idxOf hlt]
    rfl

/-- On code that the analysis accepts the machine does what the operations do. -/
theorem valuesLeft_execFrom {ops : List Operation} (hops : ∀ w ∈ Expr.literals ops, w ∈ constants)
    (hle : constants.length ≤ maxConstants) {s t : Summary}
    (h : Summary.extend constants.length s offset (ops.flatMap (Expr.encode constants)) = .ok t)
    {m : Machine Unit} (hm : Matches scene limit s m) (hlimit : t.instructions ≤ limit) :
    valuesLeft ((execFrom scene constants limit source offset
        (ops.flatMap (Expr.encode constants))).perform m) =
      Operation.runAll? scene constants ops m.stack.topFirst := by
  induction ops generalizing offset s m with
  | nil => rfl
  | cons op rest ih =>
    have hhead : ∀ w, op = .literal w → w ∈ constants := by
      rintro w rfl
      exact hops w (List.mem_cons_self ..)
    have hrest : ∀ w ∈ Expr.literals rest, w ∈ constants := fun w hw => hops w (Expr.mem_literals_cons hw)
    obtain ⟨i, operand, hcode, hrun⟩ := exists_instruction hhead hle scene
    rw [List.flatMap_cons, hcode] at h ⊢
    obtain ⟨i', s', hi, hs, hextend⟩ := Summary.extend_cons_eq_ok h
    obtain rfl : i = i' := by
      rw [Instruction.ofOpcode?_opcode] at hi
      exact Option.some.inj hi
    have hinstr : s.instructions < t.instructions := by
      have := (Summary.grows_of_extend hextend).instructions
      obtain ⟨-, -, -, -, rfl⟩ := Summary.step_eq_ok hs
      exact this
    have hlt : s.instructions < limit := hinstr.trans_le hlimit
    have hexec := valuesLeft_exec hs scene (m := m.counted) hm.depth
    have hnext := foretold_exec hs hm hlt
    rw [List.cons_append, List.cons_append, List.nil_append,
      perform_execFrom_cons hi _ (hm.steps ▸ hlt), Action.perform_bind, Operation.runAll?_cons,
      ← hrun]
    rw [show m.stack.topFirst = m.counted.stack.topFirst from rfl, ← hexec]
    revert hnext
    rcases (exec scene constants i operand offset).perform m.counted with ⟨fault | _, m'⟩
    · intro _
      rfl
    · intro hm'
      exact ih hrest hextend hm'

end Machine

end TokenSale
