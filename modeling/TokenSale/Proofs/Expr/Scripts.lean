import TokenSale.Proofs.Expr.Compilation

/-!
# Scripts of expressions

`Script.ofExprs` refuses some lists of expressions, for example those that keep too many values on the stack. What
it accepts, it translates right: `run_ofExprs`.

* `ofExprs_of_lt`, `ofExprs_of_le`: too many literals are refused, and otherwise the analysis decides.
* `parts_of_ofExprs`: what is known of an accepted script.
* `denoteAll_eq_some_iff`: several expressions have values together exactly if each has one.
-/

namespace TokenSale

namespace Expr

theorem mem_distinct {w : Word} {ws : List Word} : w ∈ distinct ws ↔ w ∈ ws := by
  induction ws with
  | nil => rfl
  | cons v ws ih =>
    rw [distinct, List.mem_cons, List.mem_cons, List.mem_filter, ih]
    by_cases hv : w = v
    · simp [hv]
    · simp [hv]

theorem denoteAll_eq_some_iff {s : Surroundings} {es : List Expr} {ws : List Word} :
    denoteAll s es = some ws ↔ es.map (denote s) = ws.map some := by
  induction es generalizing ws with
  | nil => cases ws <;> simp [denoteAll]
  | cons e rest ih =>
    rw [denoteAll, List.map_cons]
    cases e.denote s with
    | none => cases ws <;> simp
    | some w =>
      cases ws with
      | nil => cases denoteAll s rest <;> simp
      | cons v vs =>
        simp only [List.map_cons, List.cons.injEq, Option.some.injEq, ← ih]
        cases denoteAll s rest <;> simp

theorem denoteAll_isSome_iff {s : Surroundings} {es : List Expr} :
    (denoteAll s es).isSome ↔ ∀ e ∈ es, (e.denote s).isSome := by
  induction es with
  | nil => simp [denoteAll]
  | cons e rest ih =>
    rw [denoteAll, List.forall_mem_cons, ← ih]
    cases e.denote s <;> cases denoteAll s rest <;> simp

/-! ## The script of operations -/

/-- The constants of the script of operations. -/
def pool (ops : List Operation) : List Word := distinct (literals ops)

theorem length_encode (constants : List Word) (op : Operation) : (encode constants op).length = Instruction.width := by
  cases op <;> rfl

theorem even_length_encode (constants : List Word) (ops : List Operation) :
    (ops.flatMap (encode constants)).length % 2 = 0 := by
  have hlengths : ops.map (fun op => (encode constants op).length) = List.replicate ops.length Instruction.width :=
    List.map_eq_replicate_iff.mpr fun op _ => length_encode constants op
  rw [List.length_flatMap, hlengths, List.sum_replicate_nat]
  exact Nat.mul_mod_left _ _

end Expr

/-- The script of operations, which its constants suffice for. -/
def Script.ofOperations (ops : List Operation) (h : (Expr.pool ops).length ≤ maxConstants) : Script where
  sources := [ops.flatMap (Expr.encode (Expr.pool ops))]
  constants := Expr.pool ops
  sources_ne_nil := List.cons_ne_nil _ _
  length_even := List.forall_mem_singleton.mpr (Expr.even_length_encode _ ops)
  length_constants_le := h

theorem Script.analyze_ofOperations {ops : List Operation} (h : (Expr.pool ops).length ≤ maxConstants) :
    (Script.ofOperations ops h).analyze Script.entry =
      Summary.extend (Expr.pool ops).length .empty 0 (ops.flatMap (Expr.encode (Expr.pool ops))) := rfl

namespace Expr

variable {es : List Expr}

theorem ofExprs_of_lt (h : maxConstants < (pool (fragments es).flatten).length) :
    Script.ofExprs es = .error (.tooManyConstants (pool (fragments es).flatten).length maxConstants) := by
  simp only [pool] at h ⊢
  simp only [Script.ofExprs, if_pos h]
  rfl

/-- With no more literals than there may be constants, the analysis decides. -/
theorem ofExprs_of_le (h : (pool (fragments es).flatten).length ≤ maxConstants) :
    Script.ofExprs es = ((Script.ofOperations _ h).analyze Script.entry).map fun _ => Script.ofOperations _ h := by
  have hparts : Script.ofParts [(fragments es).flatten.flatMap (encode (pool (fragments es).flatten))]
      (pool (fragments es).flatten) = .ok (Script.ofOperations _ h) := Script.ofParts_parts (Script.ofOperations _ h)
  simp only [pool] at h hparts
  simp only [Script.ofExprs, if_neg (Nat.not_lt.mpr h), hparts, bind, Except.bind]
  cases (Script.ofOperations _ h).analyze Script.entry <;> rfl

theorem ofExprs_eq_ok {script : Script} (h : Script.ofExprs es = .ok script) :
    ∃ (hle : (pool (fragments es).flatten).length ≤ maxConstants) (t : Summary),
      script = Script.ofOperations _ hle ∧ script.analyze Script.entry = .ok t := by
  rcases Nat.lt_or_ge maxConstants (pool (fragments es).flatten).length with hlt | hle
  · rw [ofExprs_of_lt hlt] at h
    cases h
  · rw [ofExprs_of_le hle] at h
    cases hanalyze : (Script.ofOperations _ hle).analyze Script.entry with
    | error fault =>
      rw [hanalyze] at h
      cases h
    | ok t =>
      rw [hanalyze] at h
      cases h
      exact ⟨hle, t, rfl, hanalyze⟩

/-- All that is known of the script of accepted expressions. -/
theorem parts_of_ofExprs {script : Script} (h : Script.ofExprs es = .ok script) :
    script.source Script.entry =
        .ok ((fragments es).flatten.flatMap (encode script.constants)) ∧
      (∀ w ∈ literals (fragments es).flatten, w ∈ script.constants) ∧
      ∃ t, script.analyze Script.entry = .ok t := by
  obtain ⟨hle, t, rfl, hanalyze⟩ := ofExprs_eq_ok h
  exact ⟨rfl, fun w hw => mem_distinct.mpr hw, t, hanalyze⟩

end Expr

namespace Machine

variable {script : Script} {exprs : List Expr} {limit : Nat}

theorem valuesLeft_run (h : Script.ofExprs exprs = .ok script)
    (hfree : ∀ e ∈ exprs, e.stackFree = true) (s : Surroundings)
    (hlimit : script.instructionCount Script.entry ≤ limit) (m : Machine Unit) :
    valuesLeft ((run script limit s.scene Script.entry).perform m) =
      (Expr.denoteAll s exprs).map List.reverse := by
  obtain ⟨hcode, hmem, t, ht⟩ := Expr.parts_of_ofExprs h
  rw [← RawScript.instructions_of_analyze ht] at hlimit
  obtain ⟨code, hcode', hextend⟩ := RawScript.source_of_analyze ht
  rw [hcode] at hcode'
  cases hcode'
  rw [perform_run hcode,
    valuesLeft_execFrom hmem script.length_constants_le hextend (matches_fresh m) hlimit]
  refine (Expr.runAll?_fragments exprs hfree []).trans ?_
  simp only [List.append_nil]

/-- **Compiled expressions compute their values.** For expressions that do not read the stack, and with enough
steps for all instructions, the script that is compiled from them runs to its end exactly if each expression has a
value. It leaves these values, in their order. A run that does not come to its end lacks the value of some
arithmetic instruction or of the context. -/
theorem run_ofExprs (h : Script.ofExprs exprs = .ok script)
    (hfree : ∀ e ∈ exprs, e.stackFree = true) (s : Surroundings)
    (hlimit : script.instructionCount Script.entry ≤ limit) (m : Machine Unit) :
    ((∃ m', (run script limit s.scene Script.entry).perform m = (.ok (), m')) ↔
        ∀ e ∈ exprs, (e.denote s).isSome) ∧
      (∀ m', (run script limit s.scene Script.entry).perform m = (.ok (), m') →
        m'.stack.toList.map some = exprs.map (Expr.denote s)) ∧
      ∀ fault m', (run script limit s.scene Script.entry).perform m = (.error fault, m') →
        fault.IsArithmetic ∨ fault.IsContextRead := by
  have hvalues := valuesLeft_run h hfree s hlimit m
  obtain ⟨-, -, t, ht⟩ := Expr.parts_of_ofExprs h
  have hend := foretold_run ht (script.isWhole Script.entry) s.scene limit m
  rw [← RawScript.instructions_of_analyze ht] at hlimit
  rw [← Expr.denoteAll_isSome_iff]
  revert hvalues hend
  generalize (run script limit s.scene Script.entry).perform m = r
  intro hvalues hend
  rcases r with ⟨fault | _, m'⟩
  · have hnone : Expr.denoteAll s exprs = none := Option.map_eq_none_iff.mp hvalues.symm
    refine ⟨iff_of_false ?_ (by rw [hnone]; decide), ?_, ?_⟩
    · rintro ⟨m'', hr⟩
      cases hr
    · intro m'' hr
      cases hr
    · intro fault' m'' hr
      cases hr
      rcases hend.2 with harith | ⟨-, hread⟩ | ⟨hlt, -⟩
      · exact Or.inl harith
      · exact Or.inr hread
      · exact absurd hlimit (Nat.not_le.mpr hlt)
  · obtain ⟨ws, hws, hstack⟩ := Option.map_eq_some_iff.mp hvalues.symm
    refine ⟨iff_of_true ⟨m', rfl⟩ (by rw [hws]; rfl), ?_, ?_⟩
    · intro m'' hr
      cases hr
      have htop : ws.reverse = m'.stack.topFirst := hstack
      rw [Expr.denoteAll_eq_some_iff.mp hws, Stack.toList, ← htop, List.reverse_reverse]
    · intro fault m'' hr
      cases hr

def sharingExprs : List Expr :=
  [.aggregate .add [.constant (.ofUInt64 2), .context 0], .isZero (.constant (.ofUInt64 2))]

/-- The script of both, with the literal once among its constants. -/
def sharingScript : Script where
  sources := [[Instruction.constant.opcode, 0, Instruction.context.opcode, 0,
    (Instruction.aggregate .add).opcode, 2, Instruction.constant.opcode, 0, Instruction.isZero.opcode, 0]]
  constants := [.ofUInt64 2]
  sources_ne_nil := by decide
  length_even := by decide
  length_constants_le := by decide

theorem run_ofExprs_sharingExprs :
    Script.ofExprs sharingExprs = .ok sharingScript ∧
      let s : Surroundings := ⟨fun _ => 0, fun _ => 0, .none, 0, [.ofUInt64 3]⟩
      ∃ m', (run sharingScript 5 s.scene Script.entry).perform (idle ()) = (.ok (), m') ∧
        m'.stack.toList.map some = [some (.ofUInt64 5), some 0] := by
  have h : Script.ofExprs sharingExprs = .ok sharingScript := by rfl
  have hfree : ∀ e ∈ sharingExprs, e.stackFree = true := by decide
  have hrun := run_ofExprs h hfree ⟨fun _ => 0, fun _ => 0, .none, 0, [.ofUInt64 3]⟩
    (show sharingScript.instructionCount Script.entry ≤ 5 by decide)
    (idle ())
  obtain ⟨m', hm'⟩ := hrun.1.mpr (by decide)
  exact ⟨h, m', hm', hrun.2.1 m' hm'⟩

end Machine

end TokenSale
