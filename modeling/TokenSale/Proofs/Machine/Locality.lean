import TokenSale.Proofs.Machine.Underflow

/-!
# Instructions are local

An instruction takes as many values off the top of the stack as the table says, and leaves one value in their place. What
lies below stays as it is, and only the instruction that copies from the stack looks at it: `exec_local`.
-/

namespace TokenSale.Machine

variable {σ : Type} {scene : Scene σ} {constants : List Word} {i : Instruction} {operand : UInt8} {offset : Nat}

/-- An operand that is not legal is refused before a value is taken. -/
theorem exec_of_not_legalOperand (scene : Scene σ) (constants : List Word) (offset : Nat)
    (h : ¬ LegalOperand i operand) :
    ∃ fault, ∀ m : Machine σ, (exec scene constants i operand offset).perform m = (.error fault, m) := by
  by_cases hcount : i.arity = .operand ∧ operand = 0
  · refine ⟨.invalidOperandCount ⟨i.mnemonic, offset⟩ operand, fun m => ?_⟩
    rw [exec, if_pos hcount, Action.perform_throw]
  · obtain ⟨hkind, hcode⟩ : i.operandKind = .comparator ∧ Comparator.ofCode? operand = none := by
      rw [LegalOperand, and_iff_right hcount, Classical.not_imp, Option.not_isSome_iff_eq_none] at h
      exact h
    cases i with
    | timeCmp =>
      refine ⟨.invalidComparator offset operand, fun m => ?_⟩
      rw [exec, if_neg hcount, dispatch, hcode]
      rfl
    | _ => cases hkind

/-! ## What is taken and left -/

/-- An instruction that succeeds has found its values and put one in their place. -/
theorem replaced_of_exec (hlegal : LegalOperand i operand) {m m' : Machine σ}
    (h : (exec scene constants i operand offset).perform m = (.ok (), m')) :
    ∃ below args w, args.length = i.arity.inputs operand ∧ m.stack.toList = below ++ args ∧
      m'.stack.toList = below ++ [w] := by
  by_cases hfew : m.stack.depth < i.arity.inputs operand
  · obtain ⟨required, available, n, herror⟩ :
        Underflows ⟨i.mnemonic, offset⟩ (exec scene constants i operand offset) m :=
      underflows_exec_of_lt hlegal hfew
    rw [h] at herror
    cases herror
  · obtain ⟨args, below, hlen, htop⟩ := exists_args m.stack (Nat.not_lt.mp hfew)
    rw [perform_exec hlegal hlen htop] at h
    cases hresult : (outcome scene constants offset m.stack.toList m.store i operand args).result with
    | ok w =>
      simp only [hresult] at h
      by_cases hroom : below.depth < Stack.limit
      · rw [perform_push (m := m.settle below _) hroom] at h
        cases h
        exact ⟨below.toList, args, w, hlen, toList_of_args htop, List.reverse_cons⟩
      · rw [perform_push_of_full (m := m.settle below _) hroom] at h
        cases h
    | error fault =>
      simp only [hresult] at h
      cases h

/-! ## What is looked at -/

/-- Only the instruction that copies from the stack depends on what it holds. -/
theorem outcome_of_ne_stack (h : i ≠ .stack) (stack stack' : List Word) (store : σ) (args : List Word) :
    outcome scene constants offset stack store i operand args =
      outcome scene constants offset stack' store i operand args := by
  cases i with
  | stack => exact absurd rfl h
  | numberMinted | isZero | timeCmp => rcases args with _ | ⟨a, _ | ⟨b, rest⟩⟩ <;> rfl
  | compare | betweenTimestamps | tierLevel | hasMinTier =>
    rcases args with _ | ⟨a, _ | ⟨b, _ | ⟨c, rest⟩⟩⟩ <;> rfl
  | eagerIf => rcases args with _ | ⟨a, _ | ⟨b, _ | ⟨c, _ | ⟨d, rest⟩⟩⟩⟩ <;> rfl
  | _ => rfl

/-- How an instruction ends that comes to an outcome above some values: with the value of the outcome on top of them, or
with its fault. -/
def EndsAbove (below : List Word) (m : Machine σ) (o : Outcome σ) (run : Except Fault Unit × Machine σ) : Prop :=
  match o.result with
  | .ok w => ∃ s : Stack, s.toList = below ++ [w] ∧ run = (.ok (), m.settle s o)
  | .error fault => ∃ s : Stack, run = (.error fault, m.settle s o)

theorem endsAbove_exec (hlegal : LegalOperand i operand) {m : Machine σ} {below args : List Word}
    (hlen : args.length = i.arity.inputs operand) (hstack : m.stack.toList = below ++ args)
    (hroom : below.length < Stack.limit) :
    EndsAbove below m (outcome scene constants offset m.stack.toList m.store i operand args)
      ((exec scene constants i operand offset).perform m) := by
  have hbase : below.reverse.length < Stack.limit := by
    rw [List.length_reverse]
    exact hroom
  let base : Stack := ⟨below.reverse, Nat.le_of_lt hbase⟩
  have htop : m.stack.topFirst = args.reverse ++ base.topFirst := by
    rw [← List.reverse_append, ← hstack, Stack.toList, List.reverse_reverse]
  unfold EndsAbove
  rw [perform_exec hlegal hlen htop]
  cases hresult : (outcome scene constants offset m.stack.toList m.store i operand args).result with
  | ok w =>
    refine ⟨⟨w :: base.topFirst, hbase⟩, ?_, ?_⟩
    · rw [Stack.toList, List.reverse_cons, List.reverse_reverse]
    · simp only [hresult]
      exact perform_push (m := m.settle base _) hbase _ w
  | error fault =>
    refine ⟨base, ?_⟩
    simp only [hresult]

/-- **Instructions are local.** An instruction that succeeds has found as many values as the table says, and has replaced
them by one value above all that lies below them. Every instruction but the one that copies from the stack comes to one
outcome on given values and a given store, whatever else the machine holds: with room for a value, the machine ends with
the value of the outcome on what lies below the given values, or with the fault of the outcome. -/
theorem exec_local (scene : Scene σ) (constants : List Word) (i : Instruction) (operand : UInt8) (offset : Nat) :
    (∀ m m' : Machine σ, (exec scene constants i operand offset).perform m = (.ok (), m') →
      ∃ below args w, args.length = i.arity.inputs operand ∧ m.stack.toList = below ++ args ∧
        m'.stack.toList = below ++ [w]) ∧
      (i ≠ .stack → ∀ (store : σ) (args : List Word), args.length = i.arity.inputs operand →
        ∃ o : Outcome σ, ∀ (m : Machine σ) (below : List Word), m.store = store →
          m.stack.toList = below ++ args → below.length < Stack.limit →
          EndsAbove below m o ((exec scene constants i operand offset).perform m)) := by
  by_cases hlegal : LegalOperand i operand
  · refine ⟨fun m m' => replaced_of_exec hlegal, ?_⟩
    rintro hne store args hlen
    refine ⟨outcome scene constants offset [] store i operand args, ?_⟩
    rintro m below rfl hstack hroom
    rw [outcome_of_ne_stack hne [] m.stack.toList]
    exact endsAbove_exec hlegal hlen hstack hroom
  · obtain ⟨fault, hfault⟩ := exec_of_not_legalOperand scene constants offset hlegal
    refine ⟨?_, ?_⟩
    · intro m m' hok
      rw [hfault] at hok
      cases hok
    · intro hne store args hlen
      refine ⟨⟨.error fault, store, []⟩, ?_⟩
      rintro m below rfl hstack hroom
      refine ⟨m.stack, ?_⟩
      rw [settle_quiet, withStack_stack]
      exact hfault m

end TokenSale.Machine
