import TokenSale.Proofs.Machine.Instruction

/-!
# Running code

The laws of a run from one instruction to the next: the step that is counted before an instruction
(`perform_tick`), the first instruction of some code (`perform_execFrom_cons`), code part after part (`execFrom_append`)
and a byte alone at its end (`perform_execFrom_stray`). `runPrefix` stops a run after a number of instructions; it is how
a statement about every moment of a run is made.
-/

namespace TokenSale

/-! ## Sources -/

namespace RawScript

/-- How many whole instructions a source has. -/
def instructionCount (script : RawScript) (source : Nat) : Nat :=
  ((script.sources[source]?).getD []).length / Instruction.width

/-- A source that ends with an instruction, and not in the middle of one. -/
def IsWhole (script : RawScript) (source : Nat) : Prop :=
  ((script.sources[source]?).getD []).length % Instruction.width = 0

instance (script : RawScript) (source : Nat) : Decidable (script.IsWhole source) :=
  inferInstanceAs (Decidable (_ = _))

variable {script : RawScript} {index : Nat} {code : List UInt8}

theorem exists_source (h : index < script.sources.length) : ∃ code, script.source index = .ok code :=
  ⟨script.sources[index], by rw [source, List.getElem?_eq_getElem h]⟩

theorem missing_of_source {fault : Fault} (h : script.source index = .error fault) :
    fault = .missingSource index script.sources.length := by
  rw [source] at h
  split at h
  · cases h
  · cases h
    rfl

theorem source_of_length_le (h : script.sources.length ≤ index) :
    script.source index = .error (.missingSource index script.sources.length) := by
  rw [source, List.getElem?_eq_none h]

theorem getElem?_of_source (h : script.source index = .ok code) : script.sources[index]? = some code := by
  rw [source] at h
  split at h
  · rename_i found hfound
    cases h
    exact hfound
  · cases h

theorem instructionCount_of_source (h : script.source index = .ok code) :
    script.instructionCount index = code.length / Instruction.width := by
  rw [instructionCount, getElem?_of_source h, Option.getD_some]

theorem isWhole_of_source (h : script.source index = .ok code) :
    script.IsWhole index ↔ code.length % Instruction.width = 0 := by
  rw [IsWhole, getElem?_of_source h, Option.getD_some]

/-- A source that is not whole has a byte alone behind its instructions. -/
theorem exists_stray_of_not_isWhole (hcode : script.source index = .ok code) (h : ¬ script.IsWhole index) :
    ∃ whole opcode, code = whole ++ [opcode] ∧ whole.length % Instruction.width = 0 := by
  rw [isWhole_of_source hcode] at h
  rcases List.eq_nil_or_concat' code with rfl | ⟨whole, opcode, rfl⟩
  · exact absurd rfl h
  · refine ⟨whole, opcode, rfl, ?_⟩
    simp only [List.length_append, List.length_singleton, Instruction.width] at h ⊢
    omega

end RawScript

/-- The sources of a script proper are whole. -/
theorem Script.isWhole (script : Script) (index : Nat) : script.IsWhole index := by
  rw [RawScript.IsWhole]
  cases hcode : script.sources[index]? with
  | none => rfl
  | some code => exact script.length_even code (List.mem_of_getElem? hcode)

namespace Machine

/-! ## Code -/

variable {σ : Type}

def counted (m : Machine σ) : Machine σ := { m with steps := m.steps + 1 }

theorem perform_tick {limit : Nat} {m : Machine σ} (h : m.steps < limit) :
    (tick limit).perform m = (.ok (), m.counted) := by
  have hle : ¬ limit < m.steps + 1 := by omega
  rw [tick, Action.perform_bind_of_ok (Action.perform_modify _ m),
    Action.perform_bind_of_ok (Action.perform_get _), if_neg hle]
  rfl

theorem perform_tick_over {limit : Nat} {m : Machine σ} (h : limit ≤ m.steps) :
    (tick limit).perform m =
      (.error (.stepLimitExceeded limit), m.counted) := by
  have hlt : limit < m.steps + 1 := by omega
  rw [tick, Action.perform_bind_of_ok (Action.perform_modify _ m),
    Action.perform_bind_of_ok (Action.perform_get _), if_pos hlt]
  rfl

variable {scene : Scene σ} {constants : List Word} {limit source offset : Nat}

theorem perform_execFrom_cons {opcode operand : UInt8} {i : Instruction}
    (hi : Instruction.ofOpcode? opcode = some i) (rest : List UInt8) {m : Machine σ}
    (h : m.steps < limit) :
    (execFrom scene constants limit source offset (opcode :: operand :: rest)).perform m =
      (exec scene constants i operand offset >>= fun _ =>
        execFrom scene constants limit source (offset + Instruction.width) rest).perform
          m.counted := by
  rw [execFrom, Action.perform_bind_of_ok (perform_tick h), hi]

theorem perform_execFrom_over {opcode operand : UInt8} (rest : List UInt8) {m : Machine σ}
    (h : limit ≤ m.steps) :
    (execFrom scene constants limit source offset (opcode :: operand :: rest)).perform m =
      (.error (.stepLimitExceeded limit), m.counted) := by
  rw [execFrom, Action.perform_bind_of_error (perform_tick_over h)]

/-- Code is executed part after part. -/
theorem execFrom_append {code : List UInt8} (heven : code.length % Instruction.width = 0) (rest : List UInt8) :
    execFrom scene constants limit source offset (code ++ rest) =
      execFrom scene constants limit source offset code >>= fun _ =>
        execFrom scene constants limit source (offset + code.length) rest := by
  fun_induction execFrom scene constants limit source offset code with
  | case1 offset => rfl
  | case2 offset opcode => cases heven
  | case3 offset opcode operand more ih =>
    have hmore : more.length % Instruction.width = 0 := by
      simp only [List.length_cons, Instruction.width] at heven ⊢
      omega
    have hoffset : offset + (opcode :: operand :: more).length = offset + Instruction.width + more.length := by
      simp only [List.length_cons, Instruction.width]
      omega
    rw [List.cons_append, List.cons_append, execFrom, bind_assoc, hoffset]
    refine bind_congr fun _ => ?_
    cases Instruction.ofOpcode? opcode with
    | none => rfl
    | some i => rw [bind_assoc, ih hmore]

/-- A byte alone behind some code is begun as an instruction and fails for its operand, unless the code has failed or has
taken all the steps there are. -/
theorem perform_execFrom_stray {code : List UInt8} (heven : code.length % Instruction.width = 0) (opcode : UInt8)
    (m : Machine σ) :
    (execFrom scene constants limit source offset (code ++ [opcode])).perform m =
      match (execFrom scene constants limit source offset code).perform m with
      | (.error fault, n) => (.error fault, n)
      | (.ok _, n) =>
        (.error (if n.steps < limit then .unexpectedEnd source (offset + code.length) else .stepLimitExceeded limit),
          n.counted) := by
  rw [execFrom_append heven, Action.perform_bind]
  rcases (execFrom scene constants limit source offset code).perform m with ⟨fault | _, n⟩
  · rfl
  · dsimp only
    rw [execFrom]
    split
    · rename_i hlimit
      rw [Action.perform_bind_of_ok (perform_tick hlimit)]
      rfl
    · rename_i hlimit
      rw [Action.perform_bind_of_error (perform_tick_over (Nat.not_lt.mp hlimit))]

/-- Runs the first `k` instructions of a source, from an empty stack. -/
def runPrefix (script : RawScript) (limit : Nat) (scene : Scene σ) (source k : Nat) : Run σ Unit :=
  match script.source source with
  | .error fault => throw fault
  | .ok code => do
    modify fun m => { m with stack := .empty, steps := 0 }
    execFrom scene script.constants limit source 0 (code.take (Instruction.width * k))

def fresh (m : Machine σ) : Machine σ := { m with stack := .empty, steps := 0 }

theorem perform_run {script : RawScript} {code : List UInt8} (h : script.source source = .ok code)
    (m : Machine σ) :
    (run script limit scene source).perform m =
      (execFrom scene script.constants limit source 0 code).perform m.fresh := by
  rw [run, h]
  exact Action.perform_bind_of_ok (Action.perform_modify _ m)

/-- A source that does not exist leaves the machine as it was. -/
theorem perform_run_missing {script : RawScript} (h : script.sources.length ≤ source) (m : Machine σ) :
    (run script limit scene source).perform m =
      (.error (.missingSource source script.sources.length), m) := by
  rw [run, RawScript.source_of_length_le h]
  rfl

theorem perform_runPrefix {script : RawScript} {code : List UInt8} (h : script.source source = .ok code)
    (k : Nat) (m : Machine σ) :
    (runPrefix script limit scene source k).perform m =
      (execFrom scene script.constants limit source 0
        (code.take (Instruction.width * k))).perform m.fresh := by
  rw [runPrefix, h]
  exact Action.perform_bind_of_ok (Action.perform_modify _ m)

end Machine

end TokenSale
