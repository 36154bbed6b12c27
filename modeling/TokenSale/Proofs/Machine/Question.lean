import TokenSale.Proofs.Machine.Simulation

/-!
# What a run asks its storage

An instruction asks the storage at most one question, and the stack that it finds decides which
(`Instruction.question?`). So all that a run can learn of its storage are the answers to a list of questions,
`Machine.questions`:

* `perform_exec_withStore`: an instruction does the same with two storages that give it the same answer.
* `perform_evaluate_withStore`: a run does the same with two storages that give the same answers to its questions, and
  it leaves each storage as these questions leave it.
* `questions_withStore`: it asks them the same questions.
* `store_evaluate`: it does nothing to its storage but ask them.
-/

namespace TokenSale

/-- A question that a script can ask its storage. -/
inductive Question
  | slot (slot : Slot)
  | minted (account : Address)
deriving DecidableEq

/-- The question that an instruction asks on a stack, if it asks one. -/
def Instruction.question? (i : Instruction) (operand : UInt8) (stack : Stack) : Option Question :=
  match i with
  | .storage => (Slot.ofCode? operand).map .slot
  | .numberMinted => stack.topFirst.head?.map fun w => .minted (.ofWord w)
  | _ => none

theorem Instruction.question?_eq_none {i : Instruction} (hstorage : i ≠ .storage)
    (hminted : i ≠ .numberMinted) (operand : UInt8) (stack : Stack) :
    i.question? operand stack = none := by
  cases i with
  | storage => exact absurd rfl hstorage
  | numberMinted => exact absurd rfl hminted
  | _ => rfl

namespace Storage

variable {σ : Type}

def answer (base : Storage σ) : Question → σ → Word × σ
  | .slot slot => base.read slot
  | .minted account => base.minted account

/-- The answers to questions asked one after the other, and the state after the last. -/
def interview (base : Storage σ) : List Question → σ → List Word × σ
  | [], s => ([], s)
  | q :: rest, s =>
    let (w, t) := base.answer q s
    let (ws, u) := base.interview rest t
    (w :: ws, u)

/-- The storage that answers each question by a value of its own. -/
def ofAnswers (values : Question → Word) : Storage Unit :=
  .fixed (fun slot => values (.slot slot)) fun account => values (.minted account)

theorem interview_cons (base : Storage σ) (q : Question) (rest : List Question) (s : σ) :
    base.interview (q :: rest) s =
      ((base.answer q s).1 :: (base.interview rest (base.answer q s).2).1,
        (base.interview rest (base.answer q s).2).2) :=
  rfl

theorem interview_append (base : Storage σ) (first rest : List Question) (s : σ) :
    base.interview (first ++ rest) s =
      ((base.interview first s).1 ++ (base.interview rest (base.interview first s).2).1,
        (base.interview rest (base.interview first s).2).2) := by
  induction first generalizing s with
  | nil => rfl
  | cons q first ih =>
    rw [List.cons_append, interview_cons, ih, interview_cons]
    rfl

theorem length_interview (base : Storage σ) (qs : List Question) (s : σ) :
    (base.interview qs s).1.length = qs.length := by
  induction qs generalizing s with
  | nil => rfl
  | cons q rest ih => exact congrArg (· + 1) (ih _)

theorem interview_append_eq {τ : Type} {base : Storage σ} {base' : Storage τ} {first rest : List Question}
    {s : σ} {t : τ}
    (h : (base'.interview (first ++ rest) t).1 = (base.interview (first ++ rest) s).1) :
    (base'.interview first t).1 = (base.interview first s).1 ∧
      (base'.interview rest (base'.interview first t).2).1 =
        (base.interview rest (base.interview first s).2).1 := by
  rw [interview_append, interview_append] at h
  apply List.append_inj h
  rw [length_interview, length_interview]

theorem answer_ofAnswers (values : Question → Word) (q : Question) :
    (ofAnswers values).answer q () = (values q, ()) := by
  cases q <;> rfl

theorem interview_ofAnswers (values : Question → Word) (qs : List Question) :
    (ofAnswers values).interview qs () = (qs.map values, ()) := by
  induction qs with
  | nil => rfl
  | cons q rest ih => rw [interview_cons, answer_ofAnswers, ih, List.map_cons]

end Storage

variable {σ τ α : Type}

def Scene.withStorage (scene : Scene σ) (base : Storage τ) : Scene τ :=
  { scene with storage := base }

namespace Machine

def withStore (m : Machine σ) (t : τ) : Machine τ := { m with store := t }

theorem counted_withStore (m : Machine σ) (t : τ) : (m.withStore t).counted = m.counted.withStore t := rfl

/-! ## Actions that ask nothing -/

/-- Two actions that do the same on machines that differ in the store alone, and leave the store of the second. -/
def Blind (act : Run σ α) (act' : Run τ α) : Prop :=
  ∀ (m : Machine σ) (t : τ),
    act'.perform (m.withStore t) = ((act.perform m).1, (act.perform m).2.withStore t)

/-- Runs that follow each other whatever the store of the second is. -/
theorem blind_of_follows {act : Run σ α} {act' : Run τ α}
    (h : ∀ t, Follows (fun m m' => m' = m.withStore t) act act') : Blind act act' :=
  fun m t => Prod.ext (h t m _ rfl).1 (h t m _ rfl).2

theorem blind_throw (fault : Fault) : Blind (throw fault : Run σ α) (throw fault : Run τ α) :=
  fun _ _ => rfl

theorem blind_push (site : Site) (w : Word) : Blind (push site w : Run σ Unit) (push site w : Run τ Unit) :=
  fun _ _ => rfl

/-- A machine sees nothing of a storage that it does not ask. -/
theorem inStep_withStorage (scene : Scene σ) (base : Storage τ) (t : τ) :
    InStep (fun m m' => m' = m.withStore t) scene (scene.withStorage base) where
  stack_eq := by
    rintro m _ rfl
    rfl
  steps_eq := by
    rintro m _ rfl
    rfl
  withStack := by
    rintro m _ rfl s
    rfl
  withSteps := by
    rintro m _ rfl n
    rfl
  time_eq := rfl
  context_eq := rfl
  level_eq _ _ := rfl
  report := by
    rintro m _ rfl source account
    rfl

variable {scene : Scene σ} {constants : List Word} {limit source offset : Nat}

/-! ## One instruction -/

theorem blind_dispatch {i : Instruction} (hstorage : i ≠ .storage) (hminted : i ≠ .numberMinted)
    (operand : UInt8) (base : Storage τ) :
    Blind (dispatch scene constants i operand offset)
      (dispatch (scene.withStorage base) constants i operand offset) :=
  blind_of_follows fun t => (inStep_withStorage scene base t).follows_dispatch operand
    (fun h => absurd h hstorage) fun h => absurd h hminted

theorem perform_ask_push {q : Question} {m : Machine σ} {base : Storage σ} {base' : Storage τ} {t : τ}
    (h : (base'.answer q t).1 = (base.answer q m.store).1) (site : Site) :
    (ask (base'.answer q) >>= push site).perform (m.withStore t) =
      (((ask (base.answer q) >>= push site).perform m).1,
        ((ask (base.answer q) >>= push site).perform m).2.withStore (base'.answer q t).2) := by
  rw [Action.perform_bind_of_ok (perform_ask _ m),
    Action.perform_bind_of_ok (perform_ask _ (m.withStore t))]
  show (push site (base'.answer q t).1).perform _ = _
  rw [h]
  exact blind_push site _ { m with store := (base.answer q m.store).2 } (base'.answer q t).2

theorem perform_storage_withStore {operand : UInt8} {m : Machine σ} {base : Storage τ} {t : τ}
    (h : ∀ q, Instruction.storage.question? operand m.stack = some q →
      (base.answer q t).1 = (scene.storage.answer q m.store).1) :
    (dispatch (scene.withStorage base) constants .storage operand offset).perform (m.withStore t) =
      (((dispatch scene constants .storage operand offset).perform m).1,
        ((dispatch scene constants .storage operand offset).perform m).2.withStore
          (base.interview (Instruction.storage.question? operand m.stack).toList t).2) := by
  simp only [dispatch, Instruction.question?] at h ⊢
  cases hslot : Slot.ofCode? operand with
  | none => exact blind_throw _ m t
  | some slot => exact perform_ask_push (h (.slot slot) (congrArg _ hslot)) _

theorem perform_numberMinted_withStore {operand : UInt8} {m : Machine σ} {base : Storage τ} {t : τ}
    (h : ∀ q, Instruction.numberMinted.question? operand m.stack = some q →
      (base.answer q t).1 = (scene.storage.answer q m.store).1) :
    (dispatch (scene.withStorage base) constants .numberMinted operand offset).perform (m.withStore t) =
      (((dispatch scene constants .numberMinted operand offset).perform m).1,
        ((dispatch scene constants .numberMinted operand offset).perform m).2.withStore
          (base.interview (Instruction.numberMinted.question? operand m.stack).toList t).2) := by
  obtain ⟨⟨values, hle⟩, steps, store, log⟩ := m
  cases values with
  | nil => rfl
  | cons w rest =>
    have hq := h (.minted (.ofWord w)) rfl
    exact perform_ask_push (m := ⟨⟨rest, Nat.le_of_succ_le hle⟩, steps, store, log⟩) hq _

theorem perform_dispatch_withStore {i : Instruction} {operand : UInt8} {m : Machine σ} {base : Storage τ}
    {t : τ}
    (h : ∀ q, i.question? operand m.stack = some q →
      (base.answer q t).1 = (scene.storage.answer q m.store).1) :
    (dispatch (scene.withStorage base) constants i operand offset).perform (m.withStore t) =
      (((dispatch scene constants i operand offset).perform m).1,
        ((dispatch scene constants i operand offset).perform m).2.withStore
          (base.interview (i.question? operand m.stack).toList t).2) := by
  by_cases hstorage : i = .storage
  · subst hstorage
    exact perform_storage_withStore h
  · by_cases hminted : i = .numberMinted
    · subst hminted
      exact perform_numberMinted_withStore h
    · rw [Instruction.question?_eq_none hstorage hminted]
      exact blind_dispatch hstorage hminted operand base m t

/-- An instruction does the same with two storages that give it the same answer. -/
theorem perform_exec_withStore {i : Instruction} {operand : UInt8} {m : Machine σ} {base : Storage τ}
    {t : τ}
    (h : (base.interview (i.question? operand m.stack).toList t).1 =
      (scene.storage.interview (i.question? operand m.stack).toList m.store).1) :
    (exec (scene.withStorage base) constants i operand offset).perform (m.withStore t) =
      (((exec scene constants i operand offset).perform m).1,
        ((exec scene constants i operand offset).perform m).2.withStore
          (base.interview (i.question? operand m.stack).toList t).2) := by
  by_cases hcount : i.arity = .operand ∧ operand = 0
  · have hne : i ≠ .storage ∧ i ≠ .numberMinted := by
      constructor
      · rintro rfl
        cases hcount.1
      · rintro rfl
        cases hcount.1
    rw [Instruction.question?_eq_none hne.1 hne.2, exec, if_pos hcount, exec, if_pos hcount]
    exact blind_throw _ m t
  · rw [exec, if_neg hcount, exec, if_neg hcount]
    apply perform_dispatch_withStore
    intro q hq
    rw [hq] at h
    exact (List.cons.inj h).1

theorem store_exec (scene : Scene σ) (constants : List Word) (i : Instruction) (operand : UInt8)
    (offset : Nat) (m : Machine σ) :
    ((exec scene constants i operand offset).perform m).2.store =
      (scene.storage.interview (i.question? operand m.stack).toList m.store).2 := by
  have h : (exec (scene.withStorage scene.storage) constants i operand offset).perform
      (m.withStore m.store) = _ := perform_exec_withStore rfl
  exact congrArg (fun r => r.2.store) h

/-- An instruction, and what is left of the answers for the code after it. -/
theorem exec_of_interview_append {i : Instruction} {operand : UInt8} {m m' : Machine σ} {base : Storage τ}
    {t : τ} {rest : List Question} {result : Except Fault Unit}
    (h : (base.interview ((i.question? operand m.stack).toList ++ rest) t).1 =
      (scene.storage.interview ((i.question? operand m.stack).toList ++ rest) m.store).1)
    (hexec : (exec scene constants i operand offset).perform m = (result, m')) :
    (exec (scene.withStorage base) constants i operand offset).perform (m.withStore t) =
        (result, m'.withStore (base.interview (i.question? operand m.stack).toList t).2) ∧
      (base.interview rest (base.interview (i.question? operand m.stack).toList t).2).1 =
        (scene.storage.interview rest m'.store).1 := by
  obtain ⟨hfirst, hrest⟩ := Storage.interview_append_eq h
  have hstore := store_exec scene constants i operand offset m
  rw [hexec] at hstore
  constructor
  · rw [perform_exec_withStore hfirst, hexec]
  · rw [hrest, hstore]

/-! ## Code -/

/-- The questions that code asks when it is executed. An instruction that fails has asked its question; the
instructions after it ask none. -/
def questionsFrom (scene : Scene σ) (constants : List Word) (limit : Nat) :
    (offset : Nat) → List UInt8 → Machine σ → List Question
  | offset, opcode :: operand :: rest, m =>
    if m.steps < limit then
      match Instruction.ofOpcode? opcode with
      | none => []
      | some i =>
        (i.question? operand m.stack).toList ++
          match (exec scene constants i operand offset).perform m.counted with
          | (.ok _, m') => questionsFrom scene constants limit (offset + Instruction.width) rest m'
          | (.error _, _) => []
    else []
  | _, _, _ => []

/-- The questions that a run asks. -/
def questions (script : RawScript) (limit : Nat) (scene : Scene σ) (source : Nat) (m : Machine σ) :
    List Question :=
  match script.source source with
  | .error _ => []
  | .ok code => questionsFrom scene script.constants limit 0 code m.fresh

theorem perform_execFrom_withStore {code : List UInt8} {m : Machine σ} {base : Storage τ} {t : τ}
    (h : (base.interview (questionsFrom scene constants limit offset code m) t).1 =
      (scene.storage.interview (questionsFrom scene constants limit offset code m) m.store).1) :
    (execFrom (scene.withStorage base) constants limit source offset code).perform (m.withStore t) =
      (((execFrom scene constants limit source offset code).perform m).1,
        ((execFrom scene constants limit source offset code).perform m).2.withStore
          (base.interview (questionsFrom scene constants limit offset code m) t).2) := by
  -- `t` is what is left of the second storage when `m` has run the code before.
  fun_induction questionsFrom scene constants limit offset code m generalizing t with
  | case1 offset opcode operand rest m hlimit hi =>
    have htick := blind_of_follows (fun t => (inStep_withStorage scene base t).follows_tick limit) m t
    rw [perform_tick hlimit] at htick
    rw [execFrom, execFrom, Action.perform_bind_of_ok (perform_tick hlimit),
      Action.perform_bind_of_ok htick, hi]
    rfl
  | case2 offset opcode operand rest m hlimit i hi ih =>
    rw [perform_execFrom_cons hi rest hlimit, perform_execFrom_cons hi rest (m := m.withStore t) hlimit,
      counted_withStore, Storage.interview_append]
    rcases hr : (exec scene constants i operand offset).perform m.counted with ⟨fault | u, m'⟩
    · rw [hr] at h
      obtain ⟨hexec, -⟩ := exec_of_interview_append (m := m.counted) h hr
      rw [Action.perform_bind_of_error hr, Action.perform_bind_of_error hexec]
      rfl
    · rw [hr] at h
      obtain ⟨hexec, hrest⟩ := exec_of_interview_append (m := m.counted) h hr
      rw [Action.perform_bind_of_ok hr, Action.perform_bind_of_ok hexec]
      exact ih m' hrest
  | case3 offset opcode operand rest m hlimit =>
    have hle := Nat.not_lt.mp hlimit
    rw [perform_execFrom_over rest hle, perform_execFrom_over (m := m.withStore t) rest hle]
    rfl
  | case4 code offset m hcode =>
    rcases code with _ | ⟨opcode, _ | ⟨operand, rest⟩⟩
    · rfl
    · exact blind_of_follows (fun t => ((inStep_withStorage scene base t).follows_tick limit).bind fun _ =>
        follows_throw _) m t
    · exact (hcode opcode operand rest rfl).elim

theorem questionsFrom_withStore {code : List UInt8} {m : Machine σ} {base : Storage τ} {t : τ}
    (h : (base.interview (questionsFrom scene constants limit offset code m) t).1 =
      (scene.storage.interview (questionsFrom scene constants limit offset code m) m.store).1) :
    questionsFrom (scene.withStorage base) constants limit offset code (m.withStore t) =
      questionsFrom scene constants limit offset code m := by
  fun_induction questionsFrom scene constants limit offset code m generalizing t with
  | case1 offset opcode operand rest m hlimit hi =>
    rw [questionsFrom, if_pos (show (m.withStore t).steps < limit from hlimit), hi]
  | case2 offset opcode operand rest m hlimit i hi ih =>
    rw [questionsFrom, if_pos (show (m.withStore t).steps < limit from hlimit), hi]
    dsimp only
    rw [counted_withStore]
    rcases hr : (exec scene constants i operand offset).perform m.counted with ⟨fault | u, m'⟩
    · rw [hr] at h
      obtain ⟨hexec, -⟩ := exec_of_interview_append (m := m.counted) h hr
      rw [hexec]
      rfl
    · rw [hr] at h
      obtain ⟨hexec, hrest⟩ := exec_of_interview_append (m := m.counted) h hr
      rw [hexec]
      exact congrArg _ (ih m' hrest)
  | case3 offset opcode operand rest m hlimit =>
    rw [questionsFrom, if_neg (show ¬ (m.withStore t).steps < limit from hlimit)]
  | case4 code offset m hcode =>
    rcases code with _ | ⟨opcode, _ | ⟨operand, rest⟩⟩
    · rfl
    · rfl
    · exact (hcode opcode operand rest rfl).elim

/-! ## Whole runs -/

theorem perform_run_withStore {script : RawScript} {m : Machine σ} {base : Storage τ} {t : τ}
    (h : (base.interview (questions script limit scene source m) t).1 =
      (scene.storage.interview (questions script limit scene source m) m.store).1) :
    (run script limit (scene.withStorage base) source).perform (m.withStore t) =
      (((run script limit scene source).perform m).1,
        ((run script limit scene source).perform m).2.withStore
          (base.interview (questions script limit scene source m) t).2) := by
  unfold questions at h ⊢
  cases hcode : script.source source with
  | error fault =>
    simp only [run, hcode]
    rfl
  | ok code =>
    rw [hcode] at h
    rw [perform_run hcode, perform_run hcode]
    exact perform_execFrom_withStore h

theorem questions_withStore {script : RawScript} {m : Machine σ} {base : Storage τ} {t : τ}
    (h : (base.interview (questions script limit scene source m) t).1 =
      (scene.storage.interview (questions script limit scene source m) m.store).1) :
    questions script limit (scene.withStorage base) source (m.withStore t) =
      questions script limit scene source m := by
  unfold questions at h ⊢
  cases hcode : script.source source with
  | error fault => rfl
  | ok code =>
    rw [hcode] at h
    exact questionsFrom_withStore h

theorem blind_outputs (expected : Nat) :
    Blind (outputs expected : Run σ (List Word)) (outputs expected : Run τ (List Word)) := by
  intro m t
  simp only [outputs]
  rw [Action.perform_bind_of_ok (Action.perform_get m),
    Action.perform_bind_of_ok (Action.perform_get (m.withStore t))]
  by_cases h : m.stack.depth = expected
  · rw [if_pos h, if_pos (show (m.withStore t).stack.depth = expected from h)]
    rfl
  · rw [if_neg h, if_neg (show ¬ (m.withStore t).stack.depth = expected from h)]
    rfl

theorem perform_evaluate_withStore {script : RawScript} {expected : Nat} {m : Machine σ} {base : Storage τ}
    {t : τ}
    (h : (base.interview (questions script limit scene source m) t).1 =
      (scene.storage.interview (questions script limit scene source m) m.store).1) :
    (evaluate script limit (scene.withStorage base) source expected).perform (m.withStore t) =
      (((evaluate script limit scene source expected).perform m).1,
        ((evaluate script limit scene source expected).perform m).2.withStore
          (base.interview (questions script limit scene source m) t).2) := by
  have hrun := perform_run_withStore h
  simp only [evaluate]
  rcases hr : (run script limit scene source).perform m with ⟨fault | u, m'⟩
  · rw [hr] at hrun
    rw [Action.perform_bind_of_error hr, Action.perform_bind_of_error hrun]
  · rw [hr] at hrun
    rw [Action.perform_bind_of_ok hr, Action.perform_bind_of_ok hrun]
    exact blind_outputs expected m' _

theorem store_evaluate (script : RawScript) (limit : Nat) (scene : Scene σ) (source expected : Nat)
    (m : Machine σ) :
    ((evaluate script limit scene source expected).perform m).2.store =
      (scene.storage.interview (questions script limit scene source m) m.store).2 := by
  have h : (evaluate script limit (scene.withStorage scene.storage) source expected).perform
      (m.withStore m.store) = _ := perform_evaluate_withStore rfl
  exact congrArg (fun r => r.2.store) h

theorem length_of_evaluate {script : RawScript} {expected : Nat} {m m' : Machine σ} {values : List Word}
    (h : (evaluate script limit scene source expected).perform m = (.ok values, m')) :
    values.length = expected := by
  rw [evaluate] at h
  rcases hr : (run script limit scene source).perform m with ⟨fault | u, m''⟩
  · rw [Action.perform_bind_of_error hr] at h
    cases h
  · rw [Action.perform_bind_of_ok hr, outputs,
      Action.perform_bind_of_ok (Action.perform_get m'')] at h
    dsimp only at h
    split at h
    · next hdepth =>
      cases h
      rw [Stack.toList, List.length_reverse]
      exact hdepth
    · cases h

end Machine

end TokenSale
