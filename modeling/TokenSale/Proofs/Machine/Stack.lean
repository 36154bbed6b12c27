import Mathlib.Data.List.Basic
import TokenSale.Machine.Stack

/-!
# The stack is a list

A pile is a stack as one would write it down: a list with the top at its end, to which a value is added only below the
limit. Every call gives the same on a stack and on the pile of its values, and the pile holds the values of the stack
again after it (`perform_answer`), so that from the empty stack on all calls do: `answers_empty`. To take several values
off at once is to take them off one by one (`perform_pops`).
-/

namespace TokenSale

/-- What can be asked of a stack. -/
inductive StackCall
  | push (site : Site) (w : Word)
  | pop (site : Site)
  | popMany (site : Site) (n : Nat)
  | get (i : Nat)
  | clear

/-- What is answered if the call succeeds. -/
inductive StackReply
  | done
  | word (w : Word)
  /-- Several values, in the order in which they were pushed. -/
  | words (ws : List Word)
  /-- The value at a position, if there is one. -/
  | found (w : Option Word)

namespace StackCall

variable {σ : Type}

/-- Answers calls one after the other, each in the state that the calls before have left. -/
def answers (answer : StackCall → Action σ Fault StackReply) (calls : List StackCall) :
    StateM σ (List (Except Fault StackReply)) :=
  calls.mapM fun call => (answer call).run

theorem answers_cons (answer : StackCall → Action σ Fault StackReply) (call : StackCall) (rest : List StackCall)
    (s : σ) :
    (answers answer (call :: rest)).run s =
      let reply := (answer call).perform s
      let replies := (answers answer rest).run reply.2
      (reply.1 :: replies.1, replies.2) := by
  rw [answers, List.mapM_cons]
  rfl

end StackCall

/-- Answers a call by the stack. -/
def Stack.answer : StackCall → Action Stack Fault StackReply
  | .push site w => do
    push site w
    pure .done
  | .pop site => do
    let w ← pop site
    pure (.word w)
  | .popMany site n => do
    let ws ← popMany site n
    pure (.words ws)
  | .get i => do
    let s ← get
    pure (.found (s.get? i))
  | .clear => do
    set empty
    pure .done

/-! ## The pile -/

/-- The values of a stack, the bottom first and the top at the end. -/
abbrev Pile := List Word

namespace Pile

/-- Answers a call by the pile. -/
def answer : StackCall → Action Pile Fault StackReply
  | .push site w => .ofFunction fun p =>
    if p.length < Stack.limit then (.ok .done, p ++ [w]) else (.error (.stackOverflow site Stack.limit), p)
  | .pop site => .ofFunction fun p =>
    match p.getLast? with
    | some w => (.ok (.word w), p.dropLast)
    | none => (.error (.stackUnderflow site 1 p.length), p)
  | .popMany site n => .ofFunction fun p =>
    if p.length < n then (.error (.stackUnderflow site n p.length), p)
    else (.ok (.words (p.drop (p.length - n))), p.take (p.length - n))
  | .get i => .ofFunction fun p => (.ok (.found p[i]?), p)
  | .clear => .ofFunction fun _ => (.ok .done, [])

/-- A call that fails leaves the pile as it was. -/
theorem eq_of_perform_answer {call : StackCall} {fault : Fault} {p q : Pile}
    (h : (answer call).perform p = (.error fault, q)) : q = p := by
  cases call with
  | push site w =>
    rw [answer, Action.perform_ofFunction] at h
    split at h
    · cases h
    · cases h
      rfl
  | pop site =>
    rw [answer, Action.perform_ofFunction] at h
    split at h
    · cases h
    · cases h
      rfl
  | popMany site n =>
    rw [answer, Action.perform_ofFunction] at h
    split at h
    · cases h
      rfl
    · cases h
  | get i => cases h
  | clear => cases h

theorem length_answer_le (call : StackCall) {p : Pile} (h : p.length ≤ Stack.limit) :
    ((answer call).perform p).2.length ≤ Stack.limit := by
  cases call with
  | push site w =>
    rw [answer, Action.perform_ofFunction]
    split
    · next hroom =>
      rw [List.length_append]
      exact hroom
    · exact h
  | pop site =>
    rw [answer, Action.perform_ofFunction]
    split
    · exact Nat.le_trans (List.dropLast_sublist p).length_le h
    · exact h
  | popMany site n =>
    rw [answer, Action.perform_ofFunction]
    split
    · exact h
    · exact Nat.le_trans (List.take_sublist _ p).length_le h
  | get i => exact h
  | clear => exact Nat.zero_le _

theorem length_answers_le (calls : List StackCall) {p : Pile} (h : p.length ≤ Stack.limit) :
    ((StackCall.answers answer calls).run p).2.length ≤ Stack.limit := by
  induction calls generalizing p with
  | nil => exact h
  | cons call rest ih =>
    rw [StackCall.answers_cons]
    exact ih (length_answer_le call h)

end Pile

namespace Stack

variable {s : Stack}

/-! ## The stack and its pile -/

theorem length_toList (s : Stack) : s.toList.length = s.depth := List.length_reverse

theorem toList_injective : Function.Injective toList :=
  fun _ _ h => Stack.ext (List.reverse_injective h)

/-- The stack without its top values. -/
def drop (s : Stack) (n : Nat) : Stack :=
  ⟨s.topFirst.drop n, Nat.le_trans (List.drop_sublist n s.topFirst).length_le s.length_le⟩

theorem depth_drop (s : Stack) (n : Nat) : (s.drop n).depth = s.depth - n := List.length_drop

theorem toList_drop (s : Stack) (n : Nat) : (s.drop n).toList = s.toList.take (s.depth - n) := List.reverse_drop

theorem perform_push (h : s.depth < limit) (site : Site) (w : Word) :
    (push site w).perform s = (.ok (), ⟨w :: s.topFirst, h⟩) := dif_pos h

theorem perform_push_of_full (h : ¬ s.depth < limit) (site : Site) (w : Word) :
    (push site w).perform s = (.error (.stackOverflow site limit), s) := dif_neg h

theorem perform_pop {w : Word} {rest : List Word} (h : s.topFirst = w :: rest) (site : Site) :
    (pop site).perform s = (.ok w, s.drop 1) := by
  obtain ⟨values, hle⟩ := s
  subst h
  rfl

theorem perform_pop_of_empty (h : s.topFirst = []) (site : Site) :
    (pop site).perform s = (.error (.stackUnderflow site 1 s.depth), s) := by
  obtain ⟨values, hle⟩ := s
  subst h
  rfl

theorem perform_popMany {n : Nat} (h : n ≤ s.depth) (site : Site) :
    (popMany site n).perform s = (.ok (s.topFirst.take n).reverse, s.drop n) := if_neg (Nat.not_lt.mpr h)

theorem perform_popMany_of_lt {n : Nat} (h : s.depth < n) (site : Site) :
    (popMany site n).perform s = (.error (.stackUnderflow site n s.depth), s) := if_pos h

/-- A call gives the same on a stack and on the pile of its values, and leaves the one as the other. -/
theorem perform_answer (call : StackCall) (s : Stack) :
    (Pile.answer call).perform s.toList =
      (((answer call).perform s).1, ((answer call).perform s).2.toList) := by
  cases call with
  | push site w =>
    rw [Pile.answer, Action.perform_ofFunction, length_toList, answer]
    by_cases hroom : s.depth < limit
    · rw [if_pos hroom, Action.perform_bind_of_ok (perform_push hroom site w)]
      exact congrArg (Prod.mk _) List.reverse_cons.symm
    · rw [if_neg hroom, Action.perform_bind_of_error (perform_push_of_full hroom site w)]
  | pop site =>
    rw [Pile.answer, Action.perform_ofFunction, length_toList, answer]
    cases hvalues : s.topFirst with
    | nil =>
      rw [Action.perform_bind_of_error (perform_pop_of_empty hvalues site)]
      simp only [toList, hvalues, List.reverse_nil, List.getLast?_nil]
    | cons w rest =>
      rw [Action.perform_bind_of_ok (perform_pop hvalues site)]
      simp only [toList, drop, hvalues, List.reverse_cons, List.getLast?_concat, List.dropLast_concat,
        List.drop_one, List.tail_cons, Action.perform_pure]
  | popMany site n =>
    rw [Pile.answer, Action.perform_ofFunction, length_toList, answer]
    by_cases hn : s.depth < n
    · rw [if_pos hn, Action.perform_bind_of_error (perform_popMany_of_lt hn site)]
    · rw [if_neg hn, Action.perform_bind_of_ok (perform_popMany (Nat.not_lt.mp hn) site), Action.perform_pure,
        toList_drop, List.reverse_take]
      rfl
  | get i => rfl
  | clear => rfl

theorem answers_toList (calls : List StackCall) (s : Stack) :
    (StackCall.answers Pile.answer calls).run s.toList =
      (((StackCall.answers answer calls).run s).1, ((StackCall.answers answer calls).run s).2.toList) := by
  induction calls generalizing s with
  | nil => rfl
  | cons call rest ih =>
    rw [StackCall.answers_cons, StackCall.answers_cons, perform_answer]
    dsimp only
    rw [ih]

/-! ## Several values -/

/-- Values that are taken off one by one come with the top first. -/
theorem perform_pops {n : Nat} (h : n ≤ s.depth) (site : Site) :
    ((List.replicate n site).mapM pop).perform s = (.ok (s.topFirst.take n), s.drop n) := by
  induction n generalizing s with
  | zero => rfl
  | succ n ih =>
    obtain ⟨w, rest, hvalues⟩ := List.exists_cons_of_length_pos (Nat.zero_lt_of_lt h)
    have hrest : n ≤ (s.drop 1).depth := by
      rw [depth_drop]
      exact Nat.le_sub_one_of_lt h
    rw [List.replicate_succ, List.mapM_cons, Action.perform_bind_of_ok (perform_pop hvalues site),
      Action.perform_bind_of_ok (ih hrest)]
    simp only [drop, hvalues, Action.perform_pure, List.take_succ_cons, List.drop_succ_cons, List.drop_zero]

/-- **The stack is a list with the top at its end.** From the empty stack on, whatever the calls, all are answered as by
the pile, which then holds the values of the stack, and never more of them than the limit. On the stack that is reached,
several values that are there come off at once as they come off one by one, in the reverse order, with the same stack
left; and a call that fails leaves the stack as it was. -/
theorem answers_empty (calls : List StackCall) :
    let stack := (StackCall.answers answer calls).run empty
    let pile := (StackCall.answers Pile.answer calls).run []
    (stack.1 = pile.1 ∧ stack.2.toList = pile.2) ∧
      pile.2.length ≤ limit ∧
      (∀ site n, n ≤ stack.2.depth → ∃ values below, (popMany site n).perform stack.2 = (.ok values, below) ∧
        ((List.replicate n site).mapM pop).perform stack.2 = (.ok values.reverse, below)) ∧
      ∀ call fault s, (answer call).perform stack.2 = (.error fault, s) → s = stack.2 := by
  intro stack pile
  have hsame : pile = (stack.1, stack.2.toList) := answers_toList calls empty
  refine ⟨⟨(congrArg Prod.fst hsame).symm, (congrArg Prod.snd hsame).symm⟩,
    Pile.length_answers_le calls (Nat.zero_le _), ?_, ?_⟩
  · intro site n hn
    refine ⟨_, _, perform_popMany hn site, ?_⟩
    rw [List.reverse_reverse]
    exact perform_pops hn site
  · intro call fault s hs
    have hpile := perform_answer call stack.2
    rw [hs] at hpile
    exact toList_injective (Pile.eq_of_perform_answer hpile)

end Stack

end TokenSale
