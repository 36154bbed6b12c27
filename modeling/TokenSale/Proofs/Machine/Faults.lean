import TokenSale.Proofs.Machine.Instruction

/-!
# Where a fault stands

Most faults name the place of an instruction. Those of an instruction that is executed all name the place where it
stands (`failsAt_exec`), so a fault that names no place, such as a step too many, is never the fault of an instruction.
-/

namespace TokenSale

/-- Where the instruction stands that a fault names. -/
def Fault.offset? : Fault → Option Nat
  | invalidInstruction _ offset | unexpectedEnd _ offset | constantOutOfBounds offset _ _
  | stackReadOutOfBounds offset _ _ | contextOutOfBounds offset _ _ | invalidStorageSlot offset _
  | invalidComparator offset _ => some offset
  | stackUnderflow site _ _ | stackOverflow site _ | invalidOperandCount site _ | arithmeticOverflow site
  | divisionByZero site => some site.offset
  | missingSource _ _ | tooManyConstants _ _ | outputMismatch _ _ | stepLimitExceeded _ | sourceTooLong _ _
  | binary _ | assembly _ _ _ | file _ _ => none

namespace Machine

variable {σ α β : Type} {scene : Scene σ} {constants : List Word} {offset : Nat} {site : Site}

/-- An action whose faults all name the same place. -/
def FailsAt (offset : Nat) (act : Run σ α) : Prop :=
  ∀ m fault m', act.perform m = (.error fault, m') → fault.offset? = some offset

theorem failsAt_throw {fault : Fault} (h : fault.offset? = some offset) :
    FailsAt offset (throw fault : Run σ α) := by
  intro m fault' m' hthrow
  cases hthrow
  exact h

theorem failsAt_get : FailsAt offset (get : Run σ (Machine σ)) := by
  intro m fault m' hget
  cases hget

theorem failsAt_ask (question : σ → α × σ) : FailsAt offset (ask question) := by
  intro m fault m' hask
  cases hask

theorem FailsAt.bind {act : Run σ α} (h : FailsAt offset act) {next : α → Run σ β}
    (hnext : ∀ a, FailsAt offset (next a)) : FailsAt offset (act >>= next) := by
  intro m fault m' hbind
  rcases hact : act.perform m with ⟨fault' | a, n⟩
  · rw [Action.perform_bind_of_error hact] at hbind
    cases hbind
    exact h m _ _ hact
  · rw [Action.perform_bind_of_ok hact] at hbind
    exact hnext a n fault m' hbind

theorem failsAt_onStack {act : Action Stack Fault α}
    (h : ∀ s fault s', act.perform s = (.error fault, s') → fault.offset? = some offset) :
    FailsAt offset (onStack act : Run σ α) := by
  intro m fault m' hact
  rw [perform_onStack] at hact
  exact h m.stack fault _ (Prod.ext (Prod.ext_iff.mp hact).1 rfl)

theorem failsAt_push (w : Word) : FailsAt site.offset (push site w : Run σ Unit) := by
  refine failsAt_onStack fun s fault s' hpush => ?_
  rw [Stack.push, Action.perform_ofFunction] at hpush
  split at hpush
  · cases hpush
  · cases hpush
    rfl

theorem failsAt_pop : FailsAt site.offset (pop site : Run σ Word) := by
  refine failsAt_onStack fun s fault s' hpop => ?_
  obtain ⟨_ | ⟨w, rest⟩, hle⟩ := s
  · cases hpop
    rfl
  · cases hpop

theorem failsAt_popMany (n : Nat) : FailsAt site.offset (popMany site n : Run σ (List Word)) := by
  refine failsAt_onStack fun s fault s' hpop => ?_
  rw [Stack.popMany, Action.perform_ofFunction] at hpop
  split at hpop
  · cases hpop
    rfl
  · cases hpop

theorem failsAt_pushOr {fault : Fault} (h : fault.offset? = some site.offset) (value : Option Word) :
    FailsAt site.offset (pushOr site fault value : Run σ Unit) := by
  cases value with
  | some w => exact failsAt_push w
  | none => exact failsAt_throw h

theorem failsAt_popTier : FailsAt site.offset (popTier scene site) := by
  refine failsAt_pop.bind fun source => failsAt_pop.bind fun account => ?_
  intro m fault m' hlevel
  cases hlevel

theorem offset_ofMishap (site : Site) (mishap : Mishap) :
    (Fault.ofMishap site mishap).offset? = some site.offset := by
  cases mishap <;> rfl

/-- Every fault of an instruction names the place of the instruction. -/
theorem failsAt_exec (i : Instruction) (operand : UInt8) :
    FailsAt offset (exec scene constants i operand offset) := by
  have hpush (w : Word) : FailsAt offset (push ⟨i.mnemonic, offset⟩ w : Run σ Unit) := failsAt_push w
  have hpop : FailsAt offset (pop ⟨i.mnemonic, offset⟩ : Run σ Word) := failsAt_pop
  have htier : FailsAt offset (popTier scene ⟨i.mnemonic, offset⟩) := failsAt_popTier
  unfold exec
  split
  · exact failsAt_throw rfl
  cases i with
  | constant | context => exact failsAt_pushOr rfl _
  | stack => exact failsAt_get.bind fun m => failsAt_pushOr rfl _
  | storage =>
    rw [dispatch]
    cases Slot.ofCode? operand with
    | some slot => exact (failsAt_ask _).bind hpush
    | none => exact failsAt_throw rfl
  | blockTimestamp => exact hpush _
  | numberMinted => exact hpop.bind fun account => (failsAt_ask _).bind hpush
  | aggregate op =>
    refine (failsAt_popMany _).bind fun values => ?_
    cases op.eval values with
    | ok w => exact hpush w
    | error mishap => exact failsAt_throw (offset_ofMishap _ mishap)
  | isZero => exact hpop.bind fun a => hpush _
  | compare r => exact hpop.bind fun b => hpop.bind fun a => hpush _
  | eagerIf => exact hpop.bind fun otherwise => hpop.bind fun chosen => hpop.bind fun condition => hpush _
  | timeCmp =>
    rw [dispatch]
    cases Comparator.ofCode? operand with
    | some c => exact hpop.bind fun time => hpush _
    | none => exact failsAt_throw rfl
  | betweenTimestamps => exact hpop.bind fun last => hpop.bind fun first => hpush _
  | tierLevel => exact htier.bind fun level => hpush _
  | hasMinTier => exact htier.bind fun level => hpush _

end Machine

end TokenSale
