import TokenSale.Proofs.Machine.Simulation

/-!
# A machine that is used again

A run begins with an empty stack and no steps, so what earlier runs left on the machine is nothing to it, however they
ended. Only a storage could remember them; when its answers do not depend on its state, a run shows the same on a used
machine as on a new one (`perform_run_of_isFixed`, `run_after_jobs`). A run that finds no source leaves the machine alone.
-/

namespace TokenSale

variable {σ : Type}

/-- Storage whose answers do not depend on the state that they are drawn from. -/
structure Storage.IsFixed (base : Storage σ) : Prop where
  read : ∀ slot s t, (base.read slot t).1 = (base.read slot s).1
  minted : ∀ account s t, (base.minted account t).1 = (base.minted account s).1

theorem Storage.isFixed_fixed (slot : Slot → Word) (minted : Address → Word) : (fixed slot minted).IsFixed :=
  ⟨fun _ _ _ => rfl, fun _ _ _ => rfl⟩

namespace Machine

/-- Machines that show the same values and the same number of steps. -/
structure ShowsSame (m m' : Machine σ) : Prop where
  stack : m'.stack = m.stack
  steps : m'.steps = m.steps

theorem follows_ask_of_fixed {α : Type} {question : σ → α × σ} (h : ∀ s t, (question t).1 = (question s).1) :
    Follows ShowsSame (ask question) (ask question) := by
  intro m m' hm
  rw [perform_ask, perform_ask, h m.store m'.store]
  exact ⟨rfl, hm.stack, hm.steps⟩

theorem indistinct_of_isFixed {scene : Scene σ} (h : scene.storage.IsFixed) : Indistinct ShowsSame scene scene where
  stack_eq hm := hm.stack
  withStack hm _ := ⟨rfl, hm.steps⟩
  time_eq := rfl
  context_eq := rfl
  level_eq _ _ := rfl
  report hm _ _ := ⟨hm.stack, hm.steps⟩
  steps_eq hm := hm.steps
  withSteps hm _ := ⟨hm.stack, rfl⟩
  read slot := follows_ask_of_fixed (h.read slot)
  minted account := follows_ask_of_fixed (h.minted account)

/-- A run of a source that exists shows the same on any two machines. -/
theorem perform_run_of_isFixed {scene : Scene σ} (h : scene.storage.IsFixed) {script : RawScript} {source : Nat}
    (hsource : source < script.sources.length) (limit : Nat) (m m' : Machine σ) :
    let r := (run script limit scene source).perform m
    let r' := (run script limit scene source).perform m'
    r'.1 = r.1 ∧ ShowsSame r.2 r'.2 := by
  obtain ⟨code, hcode⟩ := RawScript.exists_source hsource
  rw [perform_run hcode, perform_run hcode]
  exact (indistinct_of_isFixed h).follows_execFrom code m.fresh m'.fresh ⟨rfl, rfl⟩

theorem outputs_of_showsSame {m m' : Machine σ} (h : ShowsSame m m') (expected : Nat) :
    ((outputs expected).perform m').1 = ((outputs expected).perform m).1 := by
  rw [outputs, Action.perform_bind_of_ok (Action.perform_get m), Action.perform_bind_of_ok (Action.perform_get m'),
    h.stack]
  dsimp only
  split <;> rfl

/-- A run that a machine is asked for. -/
structure Job (σ : Type) where
  source : Nat
  scene : Scene σ

/-- The machine after runs, whatever they came to. -/
def afterJobs (script : RawScript) (limit : Nat) (m : Machine σ) (jobs : List (Job σ)) : Machine σ :=
  jobs.foldl (fun m job => ((run script limit job.scene job.source).perform m).2) m

/-- **Runs on one machine are independent.** After any runs on a machine, with any storages, contexts and times, and
whether they succeeded, failed on the way or found no source, the next run of a source that exists shows what it shows on
a new machine: the same result, steps and values, and the same outputs. The next run of a source that does not exist says
so and leaves the machine as it was. -/
theorem run_after_jobs {scene : Scene σ} (hfixed : scene.storage.IsFixed) (script : RawScript) (limit source : Nat)
    (jobs : List (Job σ)) (store store' : σ) :
    let used := afterJobs script limit (idle store) jobs
    let r := (run script limit scene source).perform used
    let r' := (run script limit scene source).perform (idle store')
    (source < script.sources.length →
        r.1 = r'.1 ∧ r.2.steps = r'.2.steps ∧ r.2.stack = r'.2.stack ∧
          ∀ expected, ((outputs expected).perform r.2).1 = ((outputs expected).perform r'.2).1) ∧
      (script.sources.length ≤ source → r = (.error (.missingSource source script.sources.length), used)) := by
  intro used r r'
  refine ⟨fun hsource => ?_, fun hsource => perform_run_missing hsource used⟩
  obtain ⟨hresult, hsame⟩ := perform_run_of_isFixed hfixed hsource limit (idle store') used
  exact ⟨hresult, hsame.steps, hsame.stack, outputs_of_showsSame hsame⟩

/-- Two sources: a sum that lacks a value, and whether a value of the context is zero. -/
def lackingScript : Script where
  sources := [[Instruction.constant.opcode, 0, (Instruction.aggregate .add).opcode, 2],
    [Instruction.context.opcode, 0, Instruction.isZero.opcode, 0]]
  constants := [.ofUInt64 9]
  sources_ne_nil := by decide
  length_even := by decide
  length_constants_le := by decide

/-- The sum fails and leaves its one value; a third source is not found. The next run starts from nothing all the same. -/
theorem run_after_jobs_lackingScript :
    let scene : Scene Unit := ⟨Counters.zero.storage, .none, 0, [0]⟩
    let used := afterJobs lackingScript 2 (idle ()) [⟨0, scene⟩, ⟨2, scene⟩]
    let r := (run lackingScript 2 scene 1).perform used
    let r' := (run lackingScript 2 scene 1).perform (idle ())
    scene.storage.IsFixed ∧ used.stack.toList = [.ofUInt64 9] ∧ used.steps = 2 ∧
      r.1 = r'.1 ∧ r.2.steps = r'.2.steps ∧ r.2.stack = r'.2.stack ∧ r'.2.stack.toList = [1] ∧
      (run lackingScript 2 scene 2).perform used = (.error (.missingSource 2 2), used) := by
  intro scene used r r'
  have hfixed : scene.storage.IsFixed := Storage.isFixed_fixed _ _
  have hnext := run_after_jobs hfixed lackingScript 2 1 [⟨0, scene⟩, ⟨2, scene⟩] () ()
  have hmissing := run_after_jobs hfixed lackingScript 2 2 [⟨0, scene⟩, ⟨2, scene⟩] () ()
  obtain ⟨hresult, hsteps, hstack, -⟩ := hnext.1 (by decide)
  exact ⟨hfixed, by decide, by decide, hresult, hsteps, hstack, by decide, hmissing.2 (by decide)⟩

end Machine

end TokenSale
