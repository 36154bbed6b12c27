import TokenSale.Proofs.Machine.Run

/-!
# Runs side by side

The same code runs on two machines, each in a scene of its own. Two actions follow each other along a relation of
machines if they give the same result on related machines and leave related ones (`Follows`). Actions that are built
alike from such actions follow each other again, so that only three things are left to show of a relation: what it keeps
of the stacks and of what the machines see without asking (`Alike`), that it keeps the steps (`InStep`), and what the
storages answer (`Indistinct`).

* `follows_exec`: one instruction. The steps do not matter to it, and the storages only if it asks them.
* `follows_run`: a whole run.
-/

namespace TokenSale.Machine

variable {σ τ α β : Type} {R : Machine σ → Machine τ → Prop}

/-- Two actions that give the same result on related machines and leave related ones. -/
def Follows (R : Machine σ → Machine τ → Prop) (act : Run σ α) (act' : Run τ α) : Prop :=
  ∀ m m', R m m' → (act'.perform m').1 = (act.perform m).1 ∧ R (act.perform m).2 (act'.perform m').2

theorem follows_pure (a : α) : Follows R (pure a : Run σ α) (pure a) := fun _ _ h => ⟨rfl, h⟩

theorem follows_throw (fault : Fault) : Follows R (throw fault : Run σ α) (throw fault) :=
  fun _ _ h => ⟨rfl, h⟩

theorem Follows.bind {act : Run σ α} {act' : Run τ α} (h : Follows R act act') {f : α → Run σ β}
    {f' : α → Run τ β} (hf : ∀ a, Follows R (f a) (f' a)) : Follows R (act >>= f) (act' >>= f') := by
  intro m m' hm
  obtain ⟨hresult, hafter⟩ := h m m' hm
  rcases hact : act.perform m with ⟨e | a, n⟩
  · rcases hact' : act'.perform m' with ⟨result, n'⟩
    rw [hact, hact'] at hresult hafter
    obtain rfl : result = .error e := hresult
    rw [Action.perform_bind_of_error hact, Action.perform_bind_of_error hact']
    exact ⟨rfl, hafter⟩
  · rcases hact' : act'.perform m' with ⟨result, n'⟩
    rw [hact, hact'] at hresult hafter
    obtain rfl : result = .ok a := hresult
    rw [Action.perform_bind_of_ok hact, Action.perform_bind_of_ok hact']
    exact hf a n n' hafter

/-- What a relation of machines must keep for instructions in two scenes to follow each other, as far as they ask
nothing. -/
structure Alike (R : Machine σ → Machine τ → Prop) (scene : Scene σ) (scene' : Scene τ) : Prop where
  stack_eq : ∀ {m m'}, R m m' → m'.stack = m.stack
  withStack : ∀ {m m'}, R m m' → ∀ s : Stack, R (m.withStack s) (m'.withStack s)
  time_eq : scene'.time = scene.time
  context_eq : scene'.context = scene.context
  level_eq : ∀ source account,
    (scene'.tiers.resolve source account).1 = (scene.tiers.resolve source account).1
  report : ∀ {m m'}, R m m' → ∀ source account,
    R { m with log := m.log ++ (scene.tiers.resolve source account).2 }
      { m' with log := m'.log ++ (scene'.tiers.resolve source account).2 }

variable {scene : Scene σ} {scene' : Scene τ} {constants : List Word} {limit source offset : Nat} {site : Site}

namespace Alike

/-! ## The primitive actions -/

theorem follows_onStack (h : Alike R scene scene') (act : Action Stack Fault α) :
    Follows R (onStack act) (onStack act) := by
  intro m m' hm
  rw [perform_onStack, perform_onStack, h.stack_eq hm]
  exact ⟨rfl, h.withStack hm _⟩

theorem follows_push (h : Alike R scene scene') (w : Word) : Follows R (push site w) (push site w) :=
  h.follows_onStack _

theorem follows_pop (h : Alike R scene scene') : Follows R (pop site) (pop site) := h.follows_onStack _

theorem follows_popMany (h : Alike R scene scene') (n : Nat) : Follows R (popMany site n) (popMany site n) :=
  h.follows_onStack _

theorem follows_pushOr (h : Alike R scene scene') (fault : Fault) (value : Option Word) :
    Follows R (pushOr site fault value) (pushOr site fault value) := by
  cases value with
  | none => exact follows_throw fault
  | some w => exact h.follows_push w

/-- The levels are the same; the reports of the two oracles may differ as far as the relation lets them. -/
theorem follows_popTier (h : Alike R scene scene') : Follows R (popTier scene site) (popTier scene' site) := by
  apply h.follows_pop.bind
  intro source
  apply h.follows_pop.bind
  intro account m m' hm
  exact ⟨congrArg Except.ok (h.level_eq _ _), h.report hm _ _⟩

/-! ## One instruction -/

theorem follows_dispatch (h : Alike R scene scene') {i : Instruction} (operand : UInt8)
    (hread : i = .storage → ∀ slot,
      Follows R (ask (scene.storage.read slot)) (ask (scene'.storage.read slot)))
    (hminted : i = .numberMinted → ∀ account,
      Follows R (ask (scene.storage.minted account)) (ask (scene'.storage.minted account))) :
    Follows R (dispatch scene constants i operand offset) (dispatch scene' constants i operand offset) := by
  cases i with
  | constant => exact h.follows_pushOr _ _
  | stack =>
    intro m m' hm
    simp only [dispatch]
    rw [Action.perform_bind_of_ok (Action.perform_get m), Action.perform_bind_of_ok (Action.perform_get m'),
      h.stack_eq hm]
    exact h.follows_pushOr _ _ m m' hm
  | context =>
    simp only [dispatch, h.context_eq]
    exact h.follows_pushOr _ _
  | storage =>
    simp only [dispatch]
    cases Slot.ofCode? operand with
    | some slot => exact (hread rfl slot).bind fun w => h.follows_push w
    | none => exact follows_throw _
  | blockTimestamp =>
    simp only [dispatch, h.time_eq]
    exact h.follows_push _
  | numberMinted =>
    apply h.follows_pop.bind
    intro account
    exact (hminted rfl _).bind fun w => h.follows_push w
  | aggregate op =>
    apply (h.follows_popMany _).bind
    intro values
    cases op.eval values with
    | ok w => exact h.follows_push w
    | error mishap => exact follows_throw _
  | isZero => exact h.follows_pop.bind fun a => h.follows_push _
  | compare r => exact h.follows_pop.bind fun b => h.follows_pop.bind fun a => h.follows_push _
  | eagerIf =>
    apply h.follows_pop.bind
    intro otherwise
    apply h.follows_pop.bind
    intro chosen
    exact h.follows_pop.bind fun condition => h.follows_push _
  | timeCmp =>
    simp only [dispatch, h.time_eq]
    cases Comparator.ofCode? operand with
    | some c => exact h.follows_pop.bind fun time => h.follows_push _
    | none => exact follows_throw _
  | betweenTimestamps =>
    simp only [dispatch, h.time_eq]
    exact h.follows_pop.bind fun last => h.follows_pop.bind fun first => h.follows_push _
  | tierLevel => exact h.follows_popTier.bind fun level => h.follows_push _
  | hasMinTier => exact h.follows_popTier.bind fun level => h.follows_push _

theorem follows_exec (h : Alike R scene scene') {i : Instruction} (operand : UInt8)
    (hread : i = .storage → ∀ slot,
      Follows R (ask (scene.storage.read slot)) (ask (scene'.storage.read slot)))
    (hminted : i = .numberMinted → ∀ account,
      Follows R (ask (scene.storage.minted account)) (ask (scene'.storage.minted account))) :
    Follows R (exec scene constants i operand offset) (exec scene' constants i operand offset) := by
  unfold exec
  split
  · exact follows_throw _
  · exact h.follows_dispatch operand hread hminted

end Alike

/-! ## Runs -/

/-- What a relation must keep for the steps to be counted alike, too. -/
structure InStep (R : Machine σ → Machine τ → Prop) (scene : Scene σ) (scene' : Scene τ) : Prop extends
    Alike R scene scene' where
  steps_eq : ∀ {m m'}, R m m' → m'.steps = m.steps
  withSteps : ∀ {m m'}, R m m' → ∀ n : Nat, R { m with steps := n } { m' with steps := n }

theorem InStep.follows_tick (h : InStep R scene scene') (limit : Nat) : Follows R (tick limit) (tick limit) := by
  intro m m' hm
  have hsteps := h.steps_eq hm
  have hcounted : R m.counted m'.counted := by
    rw [counted, counted, hsteps]
    exact h.withSteps hm (m.steps + 1)
  by_cases hlimit : m.steps < limit
  · rw [perform_tick hlimit, perform_tick (hsteps ▸ hlimit)]
    exact ⟨rfl, hcounted⟩
  · rw [perform_tick_over (Nat.not_lt.mp hlimit), perform_tick_over (hsteps ▸ Nat.not_lt.mp hlimit)]
    exact ⟨rfl, hcounted⟩

/-- Scenes that related machines cannot tell apart: the storages give the same answers, too. -/
structure Indistinct (R : Machine σ → Machine τ → Prop) (scene : Scene σ) (scene' : Scene τ) : Prop extends
    InStep R scene scene' where
  read : ∀ slot, Follows R (ask (scene.storage.read slot)) (ask (scene'.storage.read slot))
  minted : ∀ account, Follows R (ask (scene.storage.minted account)) (ask (scene'.storage.minted account))

namespace Indistinct

theorem follows_execFrom (h : Indistinct R scene scene') (code : List UInt8) :
    Follows R (execFrom scene constants limit source offset code)
      (execFrom scene' constants limit source offset code) := by
  -- The recursion of `execFrom` takes two bytes at a time.
  fun_induction execFrom scene constants limit source offset code with
  | case1 offset => exact follows_pure ()
  | case2 offset opcode => exact (h.follows_tick limit).bind fun _ => follows_throw _
  | case3 offset opcode operand rest ih =>
    rw [execFrom]
    apply (h.follows_tick limit).bind
    intro _
    cases Instruction.ofOpcode? opcode with
    | none => exact follows_throw _
    | some i => exact (h.follows_exec operand (fun _ => h.read) fun _ => h.minted).bind fun _ => ih

/-- **Indistinct scenes have the same runs.** -/
theorem follows_run (h : Indistinct R scene scene') (script : RawScript) (limit source : Nat) :
    Follows R (run script limit scene source) (run script limit scene' source) := by
  intro m m' hm
  cases hcode : script.source source with
  | error fault =>
    simp only [run, hcode]
    exact follows_throw fault m m' hm
  | ok code =>
    rw [perform_run hcode, perform_run hcode]
    exact h.follows_execFrom code m.fresh m'.fresh (h.withSteps (h.withStack hm .empty) 0)

end Indistinct

end TokenSale.Machine
