import TokenSale.Proofs.Machine.Faults
import TokenSale.Proofs.Machine.Simulation

/-!
# A step limit only cuts off

A run counts its steps before its instructions, and no instruction looks at the count (`perform_exec_withSteps`). So a run
under a limit can be told from its instructions executed one after the other without any count (`executeAll`): it fails
where they fail, ends where they end, and is cut off when the limit is reached before (`Metered`). This is so of any code,
also of code that ends in the middle of an instruction: the instruction is begun, so it counts, and it fails for its
missing operand (`RawScript.begunCount`).

* `metered_execFrom`: what a limit makes of code.
* `perform_execFrom_of_le`: a greater limit changes nothing where the smaller one did not cut off.
* `run_under_limit`: the same of whole runs.
-/

namespace TokenSale

namespace RawScript

variable {script : RawScript} {source : Nat}

/-- How many instructions a run finds in a source. One begins at every second byte, and a last one counts also if it lacks
its operand. -/
def begunCount (script : RawScript) (source : Nat) : Nat :=
  (((script.sources[source]?).getD []).length + 1) / Instruction.width

theorem begunCount_of_source {code : List UInt8} (h : script.source source = .ok code) :
    script.begunCount source = (code.length + 1) / Instruction.width := by
  rw [begunCount, getElem?_of_source h, Option.getD_some]

/-- A source that is not whole begins one instruction more than the analysis counts. -/
theorem begunCount_eq (script : RawScript) (source : Nat) :
    script.begunCount source =
      if script.IsWhole source then script.instructionCount source else script.instructionCount source + 1 := by
  by_cases hwhole : script.IsWhole source
  · rw [if_pos hwhole]
    rw [IsWhole, Instruction.width] at hwhole
    rw [begunCount, instructionCount, Instruction.width]
    omega
  · rw [if_neg hwhole]
    rw [IsWhole, Instruction.width] at hwhole
    rw [begunCount, instructionCount, Instruction.width]
    omega

end RawScript

namespace Machine

variable {σ : Type} {scene : Scene σ} {constants : List Word} {limit limit' source offset : Nat}

/-! ## Instructions do not see the steps -/

def withSteps (m : Machine σ) (n : Nat) : Machine σ := { m with steps := n }

@[simp] theorem withSteps_steps (m : Machine σ) : m.withSteps m.steps = m := rfl

@[simp] theorem steps_withSteps (m : Machine σ) (n : Nat) : (m.withSteps n).steps = n := rfl

@[simp] theorem withSteps_withSteps (m : Machine σ) (n k : Nat) : (m.withSteps n).withSteps k = m.withSteps k := rfl

theorem alike_withSteps (scene : Scene σ) (n : Nat) : Alike (fun m m' => m' = m.withSteps n) scene scene where
  stack_eq := by
    rintro m _ rfl
    rfl
  withStack := by
    rintro m _ rfl s
    rfl
  time_eq := rfl
  context_eq := rfl
  level_eq _ _ := rfl
  report := by
    rintro m _ rfl source account
    rfl

theorem follows_ask_withSteps {α : Type} (question : σ → α × σ) (n : Nat) :
    Follows (fun m m' => m' = m.withSteps n) (ask question) (ask question) := by
  rintro m _ rfl
  exact ⟨rfl, rfl⟩

theorem follows_exec_withSteps (i : Instruction) (operand : UInt8) (n : Nat) :
    Follows (fun m m' => m' = m.withSteps n) (exec scene constants i operand offset)
      (exec scene constants i operand offset) :=
  (alike_withSteps scene n).follows_exec operand (fun _ _ => follows_ask_withSteps _ n)
    fun _ _ => follows_ask_withSteps _ n

/-- An instruction does the same whatever the count is, and leaves the count. -/
theorem perform_exec_withSteps (i : Instruction) (operand : UInt8) (m : Machine σ) (n : Nat) :
    (exec scene constants i operand offset).perform (m.withSteps n) =
      (((exec scene constants i operand offset).perform m).1,
        ((exec scene constants i operand offset).perform m).2.withSteps n) := by
  obtain ⟨hresult, hafter⟩ := follows_exec_withSteps i operand n m _ rfl
  exact Prod.ext hresult hafter

/-! ## Instructions without a count -/

/-- Executes the instructions of code that stands at an offset of a source, and counts no steps. -/
def executeAll (scene : Scene σ) (constants : List Word) (source : Nat) : (offset : Nat) → List UInt8 → Run σ Unit
  | _, [] => pure ()
  | offset, [_] => throw (.unexpectedEnd source offset)
  | offset, opcode :: operand :: rest =>
    match Instruction.ofOpcode? opcode with
    | none => throw (.invalidInstruction opcode offset)
    | some i => do
      exec scene constants i operand offset
      executeAll scene constants source (offset + Instruction.width) rest

/-- Executes the first `k` instructions of a source, from an empty stack, and counts no steps. -/
def executeFirst (script : RawScript) (scene : Scene σ) (source k : Nat) : Run σ Unit :=
  match script.source source with
  | .error fault => throw fault
  | .ok code => do
    modify fun m => { m with stack := .empty, steps := 0 }
    executeAll scene script.constants source 0 (code.take (Instruction.width * k))

theorem perform_executeAll_withSteps (code : List UInt8) (m : Machine σ) (n : Nat) :
    (executeAll scene constants source offset code).perform (m.withSteps n) =
      (((executeAll scene constants source offset code).perform m).1,
        ((executeAll scene constants source offset code).perform m).2.withSteps n) := by
  have hfollows : Follows (fun m m' => m' = m.withSteps n) (executeAll scene constants source offset code)
      (executeAll scene constants source offset code) := by
    fun_induction executeAll scene constants source offset code with
    | case1 => exact follows_pure ()
    | case2 => exact follows_throw _
    | case3 offset opcode operand rest hi => exact follows_throw _
    | case4 offset opcode operand rest i hi ih => exact (follows_exec_withSteps i operand n).bind fun _ => ih
  obtain ⟨hresult, hafter⟩ := hfollows m _ rfl
  exact Prod.ext hresult hafter

/-! ## What a limit makes of code -/

/-- A result that is a step too many. -/
def IsCutOff (result : Except Fault Unit) : Prop := ∃ limit, result = .error (.stepLimitExceeded limit)

/-- A fault of an instruction is no step too many. -/
theorem not_isCutOff_of_offset {fault : Fault} (h : fault.offset? = some offset) : ¬ IsCutOff (.error fault) := by
  rintro ⟨limit, hfault⟩
  obtain rfl := Except.error.inj hfault
  cases h

/-- What a limit makes of `count` instructions after `steps` steps, given what those of them come to that the limit has
room for. -/
inductive Metered (limit steps count : Nat) : Except Fault Unit × Machine σ → Except Fault Unit × Machine σ → Prop
  | failed {fault : Fault} {m : Machine σ} (started : Nat) : ¬ IsCutOff (.error fault) →
      Metered limit steps count (.error fault, m) (.error fault, m.withSteps started)
  | ended {m : Machine σ} : steps + count ≤ limit →
      Metered limit steps count (.ok (), m) (.ok (), m.withSteps (steps + count))
  | cut {m : Machine σ} : limit < steps + count →
      Metered limit steps count (.ok (), m) (.error (.stepLimitExceeded limit), m.withSteps (limit + 1))

namespace Metered

variable {steps count : Nat} {r r' : Except Fault Unit × Machine σ}

/-- One more instruction before. -/
theorem cons {n : Nat} (h : Metered limit (steps + 1) count (r.1, r.2.withSteps n) r') :
    Metered limit steps (count + 1) r r' := by
  have hcount : steps + 1 + count = steps + (count + 1) := by omega
  obtain ⟨result, m⟩ := r
  cases h with
  | failed started hfault => exact .failed started hfault
  | ended hle =>
    rw [hcount] at hle ⊢
    exact .ended hle
  | cut hlt =>
    rw [hcount] at hlt
    exact .cut hlt

theorem isCutOff_iff (h : Metered limit steps count r r') :
    IsCutOff r'.1 ↔ limit < steps + count ∧ r.1 = .ok () := by
  cases h with
  | failed started hfault => exact iff_of_false hfault fun h => nomatch h.2
  | ended hle => exact iff_of_false (fun ⟨_, h⟩ => nomatch h) fun h => absurd h.1 (Nat.not_lt.mpr hle)
  | cut hlt => exact iff_of_true ⟨limit, rfl⟩ ⟨hlt, rfl⟩

theorem of_isCutOff (h : Metered limit steps count r r') (hcut : IsCutOff r'.1) :
    r'.1 = .error (.stepLimitExceeded limit) ∧ r'.2.steps = limit + 1 := by
  cases h with
  | failed started hfault => exact absurd hcut hfault
  | ended hle => exact nomatch hcut
  | cut hlt => exact ⟨rfl, rfl⟩

theorem steps_of_ok (h : Metered limit steps count r r') (hok : r'.1 = .ok ()) : r'.2.steps = steps + count := by
  cases h with
  | failed started hfault => cases hok
  | ended hle => rfl
  | cut hlt => cases hok

end Metered

/-- Where the limit is reached and there is more to begin, the next step is one too many. -/
theorem metered_over {count : Nat} {m : Machine σ} (hm : m.steps ≤ limit) (hlimit : limit ≤ m.steps) (hcount : 0 < count)
    (code : List UInt8) (more : Unit → Run σ Unit) :
    Metered limit m.steps count
      ((executeAll scene constants source offset (code.take (Instruction.width * (limit - m.steps)))).perform m)
      ((tick limit >>= more).perform m) := by
  have hsteps : m.steps = limit := Nat.le_antisymm hm hlimit
  have hcut : m.counted = m.withSteps (limit + 1) := by rw [counted, hsteps]; rfl
  rw [Action.perform_bind_of_error (perform_tick_over hlimit), hcut, hsteps, Nat.sub_self, Nat.mul_zero, List.take_zero,
    executeAll]
  exact .cut (Nat.lt_add_of_pos_right hcount)

/-- Code under a limit does what its instructions within the limit do without a count, and is cut off after them if there
are more. -/
theorem metered_execFrom (source : Nat) (code : List UInt8) {m : Machine σ} (hm : m.steps ≤ limit) :
    Metered limit m.steps ((code.length + 1) / Instruction.width)
      ((executeAll scene constants source offset (code.take (Instruction.width * (limit - m.steps)))).perform m)
      ((execFrom scene constants limit source offset code).perform m) := by
  fun_induction execFrom scene constants limit source offset code generalizing m with
  | case1 offset =>
    rw [List.take_nil]
    exact .ended hm
  | case2 offset opcode =>
    have hcount : ([opcode].length + 1) / Instruction.width = 1 := by
      rw [List.length_singleton, Instruction.width]
    rw [hcount]
    by_cases hlimit : m.steps < limit
    · have htake : [opcode].take (Instruction.width * (limit - m.steps)) = [opcode] :=
        List.take_of_length_le (by simp only [List.length_singleton, Instruction.width]; omega)
      rw [htake, executeAll, Action.perform_bind_of_ok (perform_tick hlimit)]
      exact .failed (m.steps + 1) (not_isCutOff_of_offset rfl)
    · exact metered_over hm (Nat.not_lt.mp hlimit) Nat.one_pos _ _
  | case3 offset opcode operand rest ih =>
    have hcount : ((opcode :: operand :: rest).length + 1) / Instruction.width =
        (rest.length + 1) / Instruction.width + 1 := by
      simp only [List.length_cons, Instruction.width]
      omega
    rw [hcount]
    by_cases hlimit : m.steps < limit
    · obtain ⟨k, hk⟩ : ∃ k, limit - m.steps = k + 1 := ⟨limit - m.steps - 1, by omega⟩
      have hroom : limit - (m.steps + 1) = k := by omega
      rw [hk, show Instruction.width * (k + 1) = Instruction.width * k + 1 + 1 from rfl, List.take_succ_cons,
        List.take_succ_cons, executeAll, Action.perform_bind_of_ok (perform_tick hlimit)]
      cases Instruction.ofOpcode? opcode with
      | none => exact .failed (m.steps + 1) (not_isCutOff_of_offset rfl)
      | some i =>
        have hcounted : (exec scene constants i operand offset).perform (m.withSteps (m.steps + 1)) = _ :=
          perform_exec_withSteps i operand m (m.steps + 1)
        rw [show m.counted = m.withSteps (m.steps + 1) from rfl]
        rcases hexec : (exec scene constants i operand offset).perform m with ⟨fault | _, n⟩
        · rw [hexec] at hcounted
          rw [Action.perform_bind_of_error hexec, Action.perform_bind_of_error hcounted]
          exact .failed (m.steps + 1) (not_isCutOff_of_offset (failsAt_exec i operand m _ n hexec))
        · rw [hexec] at hcounted
          rw [Action.perform_bind_of_ok hexec, Action.perform_bind_of_ok hcounted]
          have hnext := ih (m := n.withSteps (m.steps + 1)) hlimit
          rw [steps_withSteps, hroom, perform_executeAll_withSteps] at hnext
          exact hnext.cons
    · exact metered_over hm (Nat.not_lt.mp hlimit) (Nat.succ_pos _) _ _

/-- Where a limit does not cut off, a greater one changes nothing. -/
theorem perform_execFrom_of_le (hle : limit ≤ limit') {code : List UInt8} {m : Machine σ}
    (h : ((execFrom scene constants limit source offset code).perform m).1 ≠ .error (.stepLimitExceeded limit)) :
    (execFrom scene constants limit' source offset code).perform m =
      (execFrom scene constants limit source offset code).perform m := by
  fun_induction execFrom scene constants limit source offset code generalizing m with
  | case1 offset => rfl
  | case2 offset opcode =>
    by_cases hlimit : m.steps < limit
    · rw [execFrom, Action.perform_bind_of_ok (perform_tick hlimit),
        Action.perform_bind_of_ok (perform_tick (Nat.lt_of_lt_of_le hlimit hle))]
    · rw [Action.perform_bind_of_error (perform_tick_over (Nat.not_lt.mp hlimit))] at h
      exact absurd rfl h
  | case3 offset opcode operand rest ih =>
    by_cases hlimit : m.steps < limit
    · rw [Action.perform_bind_of_ok (perform_tick hlimit)] at h ⊢
      rw [execFrom, Action.perform_bind_of_ok (perform_tick (Nat.lt_of_lt_of_le hlimit hle))]
      cases hi : Instruction.ofOpcode? opcode with
      | none => rfl
      | some i =>
        simp only [hi] at h ⊢
        rcases hexec : (exec scene constants i operand offset).perform m.counted with ⟨fault | _, n⟩
        · rw [Action.perform_bind_of_error hexec, Action.perform_bind_of_error hexec]
        · rw [Action.perform_bind_of_ok hexec] at h ⊢
          rw [Action.perform_bind_of_ok hexec]
          exact ih h
    · rw [Action.perform_bind_of_error (perform_tick_over (Nat.not_lt.mp hlimit))] at h
      exact absurd rfl h

/-! ## Whole runs -/

theorem metered_run (script : RawScript) (limit : Nat) (scene : Scene σ) (source : Nat) (m : Machine σ) :
    Metered limit 0 (script.begunCount source) ((executeFirst script scene source limit).perform m)
      ((run script limit scene source).perform m) := by
  rw [executeFirst]
  cases hcode : script.source source with
  | error fault =>
    have hmissing := RawScript.missing_of_source hcode
    rw [run, hcode]
    refine .failed m.steps ?_
    rintro ⟨l, hfault⟩
    rw [hmissing] at hfault
    cases hfault
  | ok code =>
    have hfirst := Action.perform_modify (ε := Fault) (fun m : Machine σ => { m with stack := .empty, steps := 0 }) m
    rw [Action.perform_bind_of_ok hfirst, perform_run hcode, RawScript.begunCount_of_source hcode]
    exact metered_execFrom (m := m.fresh) source code (Nat.zero_le limit)

theorem perform_run_of_le {script : RawScript} (hle : limit ≤ limit') {m : Machine σ}
    (h : ¬ IsCutOff ((run script limit scene source).perform m).1) :
    (run script limit' scene source).perform m = (run script limit scene source).perform m := by
  cases hcode : script.source source with
  | error fault => rw [run, run, hcode]
  | ok code =>
    rw [perform_run hcode] at h ⊢
    rw [perform_run hcode]
    exact perform_execFrom_of_le hle fun hcut => h ⟨limit, hcut⟩

/-- A run comes to its end on whole sources only. -/
theorem isWhole_of_run {script : RawScript} {m m' : Machine σ}
    (h : (run script limit scene source).perform m = (.ok (), m')) : script.IsWhole source := by
  by_contra hstray
  cases hcode : script.source source with
  | error fault =>
    rw [run, hcode] at h
    cases h
  | ok code =>
    obtain ⟨whole, opcode, rfl, heven⟩ := RawScript.exists_stray_of_not_isWhole hcode hstray
    rw [perform_run hcode, perform_execFrom_stray heven] at h
    split at h
    · cases h
    · cases h

/-- **A step limit only cuts off.** A run that its limit does not cut off is the same under every greater limit, down to
the machine that it leaves. A run is cut off exactly when its source has more instructions than the limit, a last one
without its operand included, and the first ones, as many as the limit says, execute without a fault; it has then started
one step more than the limit. A run that comes to its end has taken as many steps as its source has instructions, and
all of these are whole: they are then the instructions that the analysis counts. -/
theorem run_under_limit (script : RawScript) (limit : Nat) (scene : Scene σ) (source : Nat) (m : Machine σ) :
    let r := (run script limit scene source).perform m
    (¬ IsCutOff r.1 → ∀ limit', limit ≤ limit' → (run script limit' scene source).perform m = r) ∧
      (IsCutOff r.1 ↔ limit < script.begunCount source ∧
        ((executeFirst script scene source limit).perform m).1 = .ok ()) ∧
      (IsCutOff r.1 → r.1 = .error (.stepLimitExceeded limit) ∧ r.2.steps = limit + 1) ∧
      (r.1 = .ok () → r.2.steps = script.begunCount source ∧ script.IsWhole source) ∧
      script.begunCount source =
        if script.IsWhole source then script.instructionCount source else script.instructionCount source + 1 := by
  intro r
  have hmetered := metered_run script limit scene source m
  refine ⟨fun hcut limit' hle => perform_run_of_le hle hcut, ?_, hmetered.of_isCutOff, ?_, script.begunCount_eq source⟩
  · rw [← Nat.zero_add (script.begunCount source)]
    exact hmetered.isCutOff_iff
  · intro hok
    rw [← Nat.zero_add (script.begunCount source)]
    exact ⟨hmetered.steps_of_ok hok, isWhole_of_run (Prod.ext hok rfl)⟩

/-- Two whole instructions and one without its operand are three that are begun, so a limit of two cuts off. -/
example :
    let script : RawScript := ⟨[[4, 0, 4, 0, 9]], []⟩
    let r := (run script 2 ⟨Counters.zero.storage, .none, 0, []⟩ 0).perform (idle ())
    script.begunCount 0 = 3 ∧ r.1 = .error (.stepLimitExceeded 2) ∧ r.2.steps = 3 :=
  ⟨rfl, rfl, rfl⟩

end Machine

end TokenSale
