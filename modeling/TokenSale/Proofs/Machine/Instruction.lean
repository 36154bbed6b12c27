import TokenSale.Machine.Basic
import TokenSale.Proofs.Machine.Stack

/-!
# What one instruction does

An instruction takes its values off the stack, computes one value from them and puts it on. `outcome` is the
middle part alone: a function of the values, which sees the stack only to copy from it. `perform_exec` says that
an instruction with a legal operand, on a stack with enough values, is nothing but the three parts in turn:

* `perform_pop`, `perform_popMany`, `perform_push`: the primitive steps on the stack of a machine.
* `perform_exec`: on `args` above `below`, an instruction computes `outcome` and pushes it onto `below`.
-/

namespace TokenSale

/-- The two faults that only the values themselves can bring about. -/
def Fault.IsArithmetic (fault : Fault) : Prop :=
  ∃ site, fault = .arithmeticOverflow site ∨ fault = .divisionByZero site

namespace Machine

variable {σ : Type}

/-! ## The stack of a machine -/

def withStack (m : Machine σ) (s : Stack) : Machine σ := { m with stack := s }

@[simp] theorem withStack_stack (m : Machine σ) : m.withStack m.stack = m := rfl

@[simp] theorem withStack_withStack (m : Machine σ) (s t : Stack) :
    (m.withStack s).withStack t = m.withStack t := rfl

theorem perform_onStack {α : Type} (act : Action Stack Fault α) (m : Machine σ) :
    (onStack act).perform m =
      ((act.perform m.stack).1, m.withStack (act.perform m.stack).2) := rfl

theorem perform_pop {m : Machine σ} {w : Word} {s : Stack}
    (h : m.stack.topFirst = w :: s.topFirst) (site : Site) :
    (pop site).perform m = (.ok w, m.withStack s) := by
  obtain ⟨⟨values, hle⟩, steps, store, log⟩ := m
  subst h
  rfl

theorem perform_popMany {m : Machine σ} {args : List Word} {s : Stack}
    (h : m.stack.topFirst = args.reverse ++ s.topFirst) (site : Site) :
    (popMany site args.length).perform m = (.ok args, m.withStack s) := by
  have hlen : args.reverse.length = args.length := List.length_reverse
  have hdepth : args.length ≤ m.stack.depth := by
    rw [Stack.depth, h, List.length_append, hlen]
    exact Nat.le_add_right _ _
  have htake : m.stack.topFirst.take args.length = args.reverse := by
    rw [h, List.take_left' hlen]
  have hdrop : m.stack.drop args.length = s := by
    apply Stack.ext
    show m.stack.topFirst.drop args.length = s.topFirst
    rw [h, List.drop_left' hlen]
  rw [popMany, perform_onStack, Stack.perform_popMany hdepth, htake, hdrop, List.reverse_reverse]

theorem perform_push {m : Machine σ} (h : m.stack.depth < Stack.limit) (site : Site) (w : Word) :
    (push site w).perform m = (.ok (), m.withStack ⟨w :: m.stack.topFirst, h⟩) := by
  rw [push, perform_onStack, Stack.perform_push h]

theorem perform_push_of_full {m : Machine σ} (h : ¬ m.stack.depth < Stack.limit) (site : Site) (w : Word) :
    (push site w).perform m = (.error (.stackOverflow site Stack.limit), m) := by
  rw [push, perform_onStack, Stack.perform_push_of_full h, withStack_stack]

theorem exists_args (s : Stack) {n : Nat} (h : n ≤ s.depth) :
    ∃ (args : List Word) (below : Stack), args.length = n ∧
      s.topFirst = args.reverse ++ below.topFirst := by
  refine ⟨(s.topFirst.take n).reverse, s.drop n, ?_, ?_⟩
  · rw [List.length_reverse, List.length_take]
    exact Nat.min_eq_left h
  · rw [List.reverse_reverse]
    exact (List.take_append_drop n s.topFirst).symm

theorem depth_of_args {s below : Stack} {args : List Word}
    (h : s.topFirst = args.reverse ++ below.topFirst) : s.depth = args.length + below.depth := by
  simp only [Stack.depth, h, List.length_append, List.length_reverse]

theorem toList_of_args {s below : Stack} {args : List Word}
    (h : s.topFirst = args.reverse ++ below.topFirst) : s.toList = below.toList ++ args := by
  rw [Stack.toList, h, List.reverse_append, List.reverse_reverse]
  rfl

/-! ## The value of an instruction -/

/-- What an instruction comes to: a value or a fault, and what it does to the store and the log. -/
structure Outcome (σ : Type) where
  result : Except Fault Word
  store : σ
  records : List Record

def orFault (fault : Fault) : Option Word → Except Fault Word
  | some w => .ok w
  | none => .error fault

/-- What an instruction comes to on the values it consumes, which are given in the order in which they were
pushed. The values on the stack, the bottom first, only serve to copy from. -/
def outcome (scene : Scene σ) (constants : List Word) (offset : Nat) (stack : List Word) (store : σ)
    (i : Instruction) (operand : UInt8) (args : List Word) : Outcome σ :=
  let site : Site := ⟨i.mnemonic, offset⟩
  let quiet (result : Except Fault Word) : Outcome σ := ⟨result, store, []⟩
  match i, args with
  | .constant, _ =>
    quiet (orFault (.constantOutOfBounds offset operand constants.length) constants[operand.toNat]?)
  | .stack, _ => quiet (orFault (.stackReadOutOfBounds offset operand stack.length) stack[operand.toNat]?)
  | .context, _ =>
    quiet (orFault (.contextOutOfBounds offset operand scene.context.length)
      scene.context[operand.toNat]?)
  | .storage, _ =>
    match Slot.ofCode? operand with
    | some slot => ⟨.ok (scene.storage.read slot store).1, (scene.storage.read slot store).2, []⟩
    | none => quiet (.error (.invalidStorageSlot offset operand))
  | .blockTimestamp, _ => quiet (.ok (.ofUInt64 scene.time))
  | .numberMinted, [account] =>
    let answer := scene.storage.minted (.ofWord account) store
    ⟨.ok answer.1, answer.2, []⟩
  | .aggregate op, values => quiet ((op.eval values).mapError (Fault.ofMishap site))
  | .isZero, [a] => quiet (.ok (.ofBool (a = 0)))
  | .compare r, [a, b] => quiet (.ok (.ofBool (r.holds a b)))
  | .eagerIf, [condition, chosen, otherwise] =>
    quiet (.ok (if condition = 0 then otherwise else chosen))
  | .timeCmp, [time] =>
    match Comparator.ofCode? operand with
    | some c => quiet (.ok (.ofBool (c.holds (.ofUInt64 scene.time) time)))
    | none => quiet (.error (.invalidComparator offset operand))
  | .betweenTimestamps, [first, last] =>
    quiet (.ok (.ofBool (first ≤ Word.ofUInt64 scene.time ∧ Word.ofUInt64 scene.time ≤ last)))
  | .tierLevel, [account, source] =>
    let answer := scene.tiers.resolve (.ofWord source) (.ofWord account)
    ⟨.ok (.ofUInt32 answer.1), store, answer.2⟩
  | .hasMinTier, [account, source] =>
    let answer := scene.tiers.resolve (.ofWord source) (.ofWord account)
    ⟨.ok (.ofBool (operand.toUInt32 ≤ answer.1)), store, answer.2⟩
  | _, _ => quiet (.error (.invalidOperandCount site operand))

/-- An operand byte that an instruction can be executed with: a count is not zero, and a code is the code of
something. -/
def LegalOperand (i : Instruction) (operand : UInt8) : Prop :=
  ¬ (i.arity = .operand ∧ operand = 0) ∧
    (i.operandKind = .comparator → (Comparator.ofCode? operand).isSome)

/-- The machine on which an outcome leaves its value. -/
def settle (m : Machine σ) (s : Stack) (o : Outcome σ) : Machine σ :=
  { m with stack := s, store := o.store, log := m.log ++ o.records }

theorem perform_pushOr (site : Site) (fault : Fault) (value : Option Word) (m : Machine σ) :
    (pushOr site fault value).perform m =
      match orFault fault value with
      | .ok w => (push site w).perform m
      | .error fault => (.error fault, m) := by
  cases value <;> rfl

theorem perform_ask {α : Type} (question : σ → α × σ) (m : Machine σ) :
    (ask question).perform m = (.ok (question m.store).1, { m with store := (question m.store).2 }) :=
  rfl

theorem perform_pop_pop {α : Type} {m : Machine σ} {a b : Word} {s : Stack}
    (h : m.stack.topFirst = b :: a :: s.topFirst) (site : Site) (next : Word → Word → Run σ α) :
    (do
      let b ← pop site
      let a ← pop site
      next a b : Run σ α).perform m = (next a b).perform (m.withStack s) := by
  have hle : (a :: s.topFirst).length ≤ Stack.limit := by
    have := m.stack.length_le
    rw [h] at this
    exact Nat.le_of_succ_le this
  have h1 : m.stack.topFirst = b :: (Stack.mk (a :: s.topFirst) hle).topFirst := h
  rw [Action.perform_bind_of_ok (perform_pop h1 site),
    Action.perform_bind_of_ok (perform_pop (s := s) rfl site)]
  rfl

theorem perform_popTier {m : Machine σ} {account source : Word} {s : Stack}
    (h : m.stack.topFirst = source :: account :: s.topFirst) (scene : Scene σ) (site : Site) :
    (popTier scene site).perform m =
      let answer := scene.tiers.resolve (.ofWord source) (.ofWord account)
      (.ok answer.1, { m with stack := s, log := m.log ++ answer.2 }) := by
  rw [popTier, perform_pop_pop h]
  rfl

@[simp] theorem settle_quiet (m : Machine σ) (s : Stack) (result : Except Fault Word) :
    m.settle s ⟨result, m.store, []⟩ = m.withStack s := by
  simp only [settle, withStack, List.append_nil]

/-- An instruction takes its values off, and pushes what they come to onto the rest. -/
theorem perform_exec {scene : Scene σ} {constants : List Word} {i : Instruction} {operand : UInt8}
    (hlegal : LegalOperand i operand) {m : Machine σ} {args : List Word} {below : Stack}
    (hlen : args.length = i.arity.inputs operand)
    (hstack : m.stack.topFirst = args.reverse ++ below.topFirst) (offset : Nat) :
    (exec scene constants i operand offset).perform m =
      let o := outcome scene constants offset m.stack.toList m.store i operand args
      match o.result with
      | .ok w => (push ⟨i.mnemonic, offset⟩ w).perform (m.settle below o)
      | .error fault => (.error fault, m.settle below o) := by
  rw [exec, if_neg hlegal.1]
  cases i with
  | constant =>
    obtain rfl := List.eq_nil_of_length_eq_zero hlen
    obtain rfl : m.stack = below := Stack.ext hstack
    rw [dispatch, perform_pushOr]
    simp only [outcome, settle_quiet, withStack_stack]
  | stack =>
    obtain rfl := List.eq_nil_of_length_eq_zero hlen
    obtain rfl : m.stack = below := Stack.ext hstack
    rw [dispatch, Action.perform_bind_of_ok (Action.perform_get m), perform_pushOr]
    simp only [outcome, settle_quiet, withStack_stack, Stack.get?, Stack.depth, Stack.toList,
      List.length_reverse]
  | context =>
    obtain rfl := List.eq_nil_of_length_eq_zero hlen
    obtain rfl : m.stack = below := Stack.ext hstack
    rw [dispatch, perform_pushOr]
    simp only [outcome, settle_quiet, withStack_stack]
  | storage =>
    obtain rfl := List.eq_nil_of_length_eq_zero hlen
    obtain rfl : m.stack = below := Stack.ext hstack
    rw [dispatch]
    simp only [outcome]
    cases Slot.ofCode? operand with
    | none => simp only [settle_quiet, withStack_stack, Action.perform_throw]
    | some slot =>
      rw [Action.perform_bind_of_ok (perform_ask _ m)]
      simp only [settle, List.append_nil]
  | blockTimestamp =>
    obtain rfl := List.eq_nil_of_length_eq_zero hlen
    obtain rfl : m.stack = below := Stack.ext hstack
    simp only [dispatch, outcome, settle_quiet, withStack_stack]
  | numberMinted =>
    obtain ⟨account, rfl⟩ := List.length_eq_one_iff.mp hlen
    rw [dispatch, Action.perform_bind_of_ok (perform_pop (s := below) hstack _),
      Action.perform_bind_of_ok (perform_ask _ _)]
    simp only [outcome, settle, withStack, List.append_nil]
  | aggregate op =>
    have hlen' : operand.toNat = args.length := hlen.symm
    rw [dispatch, hlen', Action.perform_bind_of_ok (perform_popMany hstack _)]
    simp only [outcome, settle_quiet]
    cases op.eval args <;> rfl
  | isZero =>
    obtain ⟨a, rfl⟩ := List.length_eq_one_iff.mp hlen
    rw [dispatch, Action.perform_bind_of_ok (perform_pop (s := below) hstack _)]
    simp only [outcome, settle_quiet, pushFlag]
  | compare r =>
    obtain ⟨a, b, rfl⟩ := List.length_eq_two.mp hlen
    rw [dispatch, perform_pop_pop (s := below) hstack]
    simp only [outcome, settle_quiet, pushFlag]
  | eagerIf =>
    obtain ⟨condition, chosen, otherwise, rfl⟩ := List.length_eq_three.mp hlen
    obtain ⟨two, htwo⟩ : ∃ two : Stack, two.topFirst = chosen :: condition :: below.topFirst := by
      have hle := m.stack.length_le
      rw [hstack] at hle
      exact ⟨⟨chosen :: condition :: below.topFirst, Nat.le_of_succ_le hle⟩, rfl⟩
    have hthree : m.stack.topFirst = otherwise :: two.topFirst := by rw [hstack, htwo]; rfl
    rw [dispatch, Action.perform_bind_of_ok (perform_pop hthree _)]
    rw [perform_pop_pop (s := below) htwo]
    simp only [outcome, settle_quiet, withStack_withStack]
  | timeCmp =>
    obtain ⟨time, rfl⟩ := List.length_eq_one_iff.mp hlen
    obtain ⟨c, hc⟩ := Option.isSome_iff_exists.mp (hlegal.2 rfl)
    rw [dispatch, hc, Action.perform_bind_of_ok (perform_pop (s := below) hstack _)]
    simp only [outcome, hc, settle_quiet, pushFlag]
  | betweenTimestamps =>
    obtain ⟨first, last, rfl⟩ := List.length_eq_two.mp hlen
    rw [dispatch, perform_pop_pop (s := below) hstack]
    simp only [outcome, settle_quiet, pushFlag]
  | tierLevel =>
    obtain ⟨account, source, rfl⟩ := List.length_eq_two.mp hlen
    rw [dispatch, Action.perform_bind_of_ok (perform_popTier (s := below) hstack _ _)]
    simp only [outcome, settle]
  | hasMinTier =>
    obtain ⟨account, source, rfl⟩ := List.length_eq_two.mp hlen
    rw [dispatch, Action.perform_bind_of_ok (perform_popTier (s := below) hstack _ _)]
    simp only [outcome, settle, pushFlag]

end Machine

end TokenSale
