import TokenSale.Proofs.Machine.Simulation

/-!
# An oracle that cannot tell says the lowest tier

A run sees of its tier oracle only the levels, and where the oracle fails the level is 0. So an oracle may as well answer
0 wherever it fails (`TierOracle.degraded`): the runs with the one and with the other leave machines that differ in their
logs alone (`SameButLog`), since only the failures are reported.

* `indistinct_degraded`: no machine can tell the two oracles apart.
* `run_degraded`: whole runs, and that the instructions which ask the oracle cannot fail because of it.
-/

namespace TokenSale

/-- The oracle that answers level 0 wherever another one fails, and answers as that one does elsewhere. -/
def TierOracle.degraded (oracle : TierOracle) : TierOracle := fun source account =>
  match oracle source account with
  | .ok level => .ok level
  | .error _ => .ok 0

theorem TierOracle.level_resolve_degraded (oracle : TierOracle) (source account : Address) :
    (oracle.degraded.resolve source account).1 = (oracle.resolve source account).1 := by
  unfold resolve degraded
  cases oracle source account <;> rfl

variable {σ : Type}

def Scene.degraded (scene : Scene σ) : Scene σ := { scene with tiers := scene.tiers.degraded }

namespace Machine

/-- Two machines that differ in their logs alone. -/
structure SameButLog (m m' : Machine σ) : Prop where
  stack : m'.stack = m.stack
  steps : m'.steps = m.steps
  store : m'.store = m.store

theorem SameButLog.refl (m : Machine σ) : SameButLog m m := ⟨rfl, rfl, rfl⟩

theorem follows_ask {α : Type} (question : σ → α × σ) : Follows SameButLog (ask question) (ask question) := by
  intro m m' hm
  rw [perform_ask, perform_ask, hm.store]
  exact ⟨rfl, hm.stack, hm.steps, rfl⟩

theorem indistinct_degraded (scene : Scene σ) : Indistinct SameButLog scene scene.degraded where
  stack_eq hm := hm.stack
  steps_eq hm := hm.steps
  withStack hm _ := ⟨rfl, hm.steps, hm.store⟩
  withSteps hm _ := ⟨hm.stack, rfl, hm.store⟩
  time_eq := rfl
  context_eq := rfl
  level_eq := scene.tiers.level_resolve_degraded
  report hm _ _ := ⟨hm.stack, hm.steps, hm.store⟩
  read slot := follows_ask (scene.storage.read slot)
  minted account := follows_ask (scene.storage.minted account)

/-- An instruction that asks the oracle fails on a short stack alone. -/
theorem exists_exec_of_tier (scene : Scene σ) (constants : List Word) {i : Instruction}
    (hi : i = .tierLevel ∨ i = .hasMinTier) (operand : UInt8) (offset : Nat) {m : Machine σ}
    (hdepth : 2 ≤ m.stack.depth) : ∃ m', (exec scene constants i operand offset).perform m = (.ok (), m') := by
  obtain ⟨⟨values, hle⟩, steps, store, log⟩ := m
  rcases values with _ | ⟨source, _ | ⟨account, below⟩⟩
  · exact absurd hdepth (Nat.not_succ_le_zero 1)
  · exact absurd hdepth (Nat.not_succ_le_self 1)
  have hroom : below.length < Stack.limit := Nat.lt_of_succ_le (Nat.le_of_succ_le hle)
  have hpop := perform_popTier (m := ⟨⟨source :: account :: below, hle⟩, steps, store, log⟩)
    (s := ⟨below, Nat.le_of_lt hroom⟩) rfl scene
  rcases hi with rfl | rfl
  all_goals
    rw [exec, if_neg (fun h => absurd h.1 (by decide)), dispatch, Action.perform_bind_of_ok (hpop _)]
    refine ⟨_, perform_push ?_ _ _⟩
    exact hroom

/-- **A failing oracle says exactly tier 0.** Whatever the script, the storage, the context, the time, the limit and the
machine are: with an oracle, and with the one that answers 0 wherever that one fails, a run has the same result, and it
leaves the same stack, the same number of steps and the same storage. An instruction that asks the oracle never fails
because of its answer: it succeeds on every stack that holds its two values. -/
theorem run_degraded (script : RawScript) (limit : Nat) (scene : Scene σ) (source : Nat) (m : Machine σ) :
    let r := (run script limit scene source).perform m
    let r' := (run script limit scene.degraded source).perform m
    (r'.1 = r.1 ∧ r'.2.stack = r.2.stack ∧ r'.2.steps = r.2.steps ∧ r'.2.store = r.2.store) ∧
      ∀ i ∈ [Instruction.tierLevel, .hasMinTier], ∀ (constants : List Word) (operand : UInt8) (offset : Nat)
        (m : Machine σ), 2 ≤ m.stack.depth →
          ∃ m', (exec scene constants i operand offset).perform m = (.ok (), m') := by
  intro r r'
  obtain ⟨hresult, hsame⟩ := (indistinct_degraded scene).follows_run script limit source m m (.refl m)
  refine ⟨⟨hresult, hsame.stack, hsame.steps, hsame.store⟩, ?_⟩
  intro i hi constants operand offset m hdepth
  exact exists_exec_of_tier scene constants (by simpa using hi) operand offset hdepth

/-- A script that asks the source 31 for the level of the account in the context. -/
def levelScript : Script where
  sources := [[Instruction.context.opcode, 0, Instruction.constant.opcode, 0, Instruction.tierLevel.opcode, 0]]
  constants := [.ofUInt64 31]
  sources_ne_nil := by decide
  length_even := by decide
  length_constants_le := by decide

/-- Where every source fails, the level is 0, and only the log tells that it was not known. -/
example :
    let r := (run levelScript 3 ⟨Counters.zero.storage, .none, 0, [1]⟩ Script.entry).perform (idle ())
    r.1 = .ok () ∧ r.2.stack.toList = [0] ∧ r.2.steps = 3 ∧ r.2.log.length = 1 := by
  decide

end Machine

end TokenSale
