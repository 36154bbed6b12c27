/-!
# Actions

An action works on a state and may fail; what it did before it failed stays done. `perform` runs one, and the
laws below say what it does on each way of building an action.
-/

namespace TokenSale

/-- An action on a state `σ` that yields an `α` or fails with an `ε`. -/
abbrev Action (σ ε α : Type) := ExceptT ε (StateM σ) α

namespace Action

variable {σ τ ε δ α β : Type}

/-- Runs an action: its result, and the state it leaves. -/
def perform (act : Action σ ε α) (s : σ) : Except ε α × σ := (ExceptT.run act).run s

/-- The action that a function from states describes. -/
def ofFunction (f : σ → Except ε α × σ) : Action σ ε α := ExceptT.mk f

/-- An action on one part of a larger state. -/
def within (get : σ → τ) (put : τ → σ → σ) (act : Action τ ε α) : Action σ ε α :=
  ofFunction fun s =>
    let (result, part) := act.perform (get s)
    (result, put part s)

/-- Renames the failures of an action. -/
def mapError (f : ε → δ) (act : Action σ ε α) : Action σ δ α :=
  ofFunction fun s =>
    match act.perform s with
    | (.ok a, t) => (.ok a, t)
    | (.error e, t) => (.error (f e), t)

@[simp] theorem perform_ofFunction (f : σ → Except ε α × σ) (s : σ) : (ofFunction f).perform s = f s := rfl

@[simp] theorem perform_pure (a : α) (s : σ) : (pure a : Action σ ε α).perform s = (.ok a, s) := rfl

@[simp] theorem perform_throw (e : ε) (s : σ) : (throw e : Action σ ε α).perform s = (.error e, s) := rfl

@[simp] theorem perform_get (s : σ) : (get : Action σ ε σ).perform s = (.ok s, s) := rfl

@[simp] theorem perform_set (s t : σ) : (set t : Action σ ε PUnit).perform s = (.ok ⟨⟩, t) := rfl

@[simp] theorem perform_modify (f : σ → σ) (s : σ) : (modify f : Action σ ε PUnit).perform s = (.ok ⟨⟩, f s) := rfl

theorem perform_bind (act : Action σ ε α) (f : α → Action σ ε β) (s : σ) :
    (act >>= f).perform s = match act.perform s with
      | (.ok a, t) => (f a).perform t
      | (.error e, t) => (.error e, t) := by
  show (ExceptT.run (act >>= f)).run s = _
  rw [ExceptT.run_bind, StateT.run_bind]
  show _ = match (ExceptT.run act).run s with
    | (.ok a, t) => _
    | (.error e, t) => _
  rcases (ExceptT.run act).run s with ⟨result, t⟩
  cases result <;> rfl

theorem perform_bind_of_ok {act : Action σ ε α} {f : α → Action σ ε β} {s t : σ} {a : α}
    (h : act.perform s = (.ok a, t)) : (act >>= f).perform s = (f a).perform t := by
  rw [perform_bind, h]

theorem perform_bind_of_error {act : Action σ ε α} {f : α → Action σ ε β} {s t : σ} {e : ε}
    (h : act.perform s = (.error e, t)) : (act >>= f).perform s = (.error e, t) := by
  rw [perform_bind, h]

end Action

end TokenSale
