import TokenSale.Proofs.Machine.Instruction

/-!
# A stack that is too low

An instruction that finds fewer values than it takes reports that the stack is too low: `underflows_exec_of_lt`. Only
the counts in the report differ, since an instruction that takes a fixed number of values takes them one by one.
-/

namespace TokenSale.Machine

variable {σ : Type} {scene : Scene σ} {constants : List Word} {offset : Nat} {site : Site}

/-- An action that finds too few values on the stack, whatever counts it reports. -/
def Underflows {α : Type} (site : Site) (act : Run σ α) (m : Machine σ) : Prop :=
  ∃ required available m', act.perform m = (.error (.stackUnderflow site required available), m')

theorem Underflows.bind {α β : Type} {act : Run σ α} {m : Machine σ} (h : Underflows site act m)
    (next : α → Run σ β) : Underflows site (act >>= next) m := by
  obtain ⟨required, available, m', hact⟩ := h
  exact ⟨required, available, m', Action.perform_bind_of_error hact⟩

/-- An action that takes one value, and then too many of those that are left. -/
theorem underflows_pop {α : Type} {n : Nat} {next : Word → Run σ α} {m : Machine σ}
    (h : m.stack.depth < n + 1)
    (hnext : ∀ w m', m'.stack.depth < n → Underflows site (next w) m') :
    Underflows site (pop site >>= next) m := by
  obtain ⟨⟨values, hle⟩, steps, store, log⟩ := m
  cases values with
  | nil => exact Underflows.bind ⟨1, 0, _, rfl⟩ next
  | cons w rest =>
    have hpop := perform_pop (m := ⟨⟨w :: rest, hle⟩, steps, store, log⟩)
      (s := ⟨rest, Nat.le_of_succ_le hle⟩) rfl site
    obtain ⟨required, available, m', hrest⟩ :=
      hnext w ⟨⟨rest, Nat.le_of_succ_le hle⟩, steps, store, log⟩ (Nat.lt_of_succ_lt_succ h)
    exact ⟨required, available, m', (Action.perform_bind_of_ok hpop).trans hrest⟩

theorem not_depth_lt_zero {P : Prop} {m : Machine σ} (h : m.stack.depth < 0) : P :=
  absurd h (Nat.not_lt_zero _)

theorem underflows_popTier {m : Machine σ} (h : m.stack.depth < 2) :
    Underflows site (popTier scene site) m :=
  underflows_pop h fun _ _ h' => underflows_pop h' fun _ _ => not_depth_lt_zero

/-- An instruction that takes a fixed number of values, one by one. -/
theorem underflows_exec {i : Instruction} {operand : UInt8} {n : Nat} (hlegal : LegalOperand i operand)
    (hfixed : i.arity = .fixed n) {m : Machine σ} (h : m.stack.depth < n) :
    Underflows ⟨i.mnemonic, offset⟩ (exec scene constants i operand offset) m := by
  rw [exec, if_neg hlegal.1]
  cases i with
  | constant | stack | context | storage | blockTimestamp =>
    cases hfixed
    exact not_depth_lt_zero h
  | aggregate op => cases hfixed
  | numberMinted | isZero =>
    cases hfixed
    exact underflows_pop h fun _ _ => not_depth_lt_zero
  | timeCmp =>
    cases hfixed
    obtain ⟨c, hc⟩ := Option.isSome_iff_exists.mp (hlegal.2 rfl)
    rw [dispatch, hc]
    exact underflows_pop h fun _ _ => not_depth_lt_zero
  | compare r =>
    cases hfixed
    exact underflows_pop h fun _ _ h' => underflows_pop h' fun _ _ => not_depth_lt_zero
  | betweenTimestamps =>
    cases hfixed
    exact underflows_pop h fun _ _ h' => underflows_pop h' fun _ _ => not_depth_lt_zero
  | eagerIf =>
    cases hfixed
    exact underflows_pop h fun _ _ h' => underflows_pop h' fun _ _ h'' =>
      underflows_pop h'' fun _ _ => not_depth_lt_zero
  | tierLevel | hasMinTier =>
    cases hfixed
    exact (underflows_popTier h).bind _

theorem perform_popMany_over {n : Nat} {m : Machine σ} (h : m.stack.depth < n) :
    (popMany site n).perform m = (.error (.stackUnderflow site n m.stack.depth), m) := by
  rw [popMany, perform_onStack, Stack.perform_popMany_of_lt h, withStack_stack]

/-- An instruction with a legal operand fails if there are fewer values than it takes. -/
theorem underflows_exec_of_lt {i : Instruction} {operand : UInt8} (hlegal : LegalOperand i operand) {m : Machine σ}
    (h : m.stack.depth < i.arity.inputs operand) :
    Underflows ⟨i.mnemonic, offset⟩ (exec scene constants i operand offset) m := by
  cases harity : i.arity with
  | fixed n =>
    rw [harity] at h
    exact underflows_exec hlegal harity h
  | operand =>
    cases i with
    | aggregate op =>
      have hmany : m.stack.depth < operand.toNat := h
      rw [exec, if_neg hlegal.1, dispatch]
      exact Underflows.bind ⟨_, _, m, perform_popMany_over hmany⟩ _
    | _ => cases harity

end TokenSale.Machine
