import Mathlib.Data.Finset.Card
import Mathlib.Data.List.Nodup
import TokenSale.Proofs.Machine.Question

/-!
# What a snapshot asks and answers

A snapshot answers a question again as it answered it first. So the answers to any list of questions are what the
snapshot remembers after the last one (`interview_eq_remembered`), and the storage behind it is asked each of them once:
what a journal of the storage holds in the end is what the snapshot remembers (`Faithful`). The journal itself changes
nothing (`interview_withoutJournal`).
-/

namespace TokenSale

/-- What a storage was asked and what it answered, in order. -/
abbrev Journal := List (Question × Word)

namespace Storage

variable {σ : Type}

/-- A storage that keeps a journal of its answers. -/
def journaled (base : Storage σ) : Storage (σ × Journal) where
  read slot s :=
    let (w, t) := base.read slot s.1
    (w, t, s.2 ++ [(.slot slot, w)])
  minted account s :=
    let (w, t) := base.minted account s.1
    (w, t, s.2 ++ [(.minted account, w)])

theorem answer_journaled (base : Storage σ) (q : Question) (s : σ × Journal) :
    base.journaled.answer q s =
      ((base.answer q s.1).1, (base.answer q s.1).2, s.2 ++ [(q, (base.answer q s.1).1)]) := by
  cases q <;> rfl

end Storage

namespace Snapshot

variable {σ : Type} {base : Storage σ}

/-- The answer that a snapshot remembers. -/
def remembered? (s : Snapshot σ) : Question → Option Word
  | .slot slot => s.slots.get? slot
  | .minted account => s.minted.get? account

/-! ## One question -/

theorem answer_of_remembered {s : Snapshot σ} {q : Question} {w : Word} (h : s.remembered? q = some w) :
    (storage base).answer q s = (w, s) := by
  cases q with
  | slot slot =>
    have h' : s.slots.get? slot = some w := h
    simp only [Storage.answer, storage, h']
  | minted account =>
    have h' : s.minted.get? account = some w := h
    simp only [Storage.answer, storage, h']

/-- A new question goes to the storage behind the snapshot, and its answer is remembered. -/
theorem answer_of_unknown {s : Snapshot σ} {q : Question} (h : s.remembered? q = none) :
    ∃ t : Snapshot σ, (storage base).answer q s = ((base.answer q s.base).1, t) ∧
      t.base = (base.answer q s.base).2 ∧
      ∀ q', t.remembered? q' = if q' = q then some (base.answer q s.base).1 else s.remembered? q' := by
  cases q with
  | slot slot =>
    have h' : s.slots.get? slot = none := h
    refine ⟨{ s with base := (base.read slot s.base).2
                     slots := s.slots.set slot (base.read slot s.base).1 }, ?_, rfl, ?_⟩
    · simp only [Storage.answer, storage, h']
    · intro q'
      cases q' with
      | slot slot' => simp only [remembered?, Table.get?_set, Storage.answer, Question.slot.injEq]
      | minted account => rfl
  | minted account =>
    have h' : s.minted.get? account = none := h
    refine ⟨{ s with base := (base.minted account s.base).2
                     minted := s.minted.set account (base.minted account s.base).1 }, ?_, rfl, ?_⟩
    · simp only [Storage.answer, storage, h']
    · intro q'
      cases q' with
      | slot slot => rfl
      | minted account' => simp only [remembered?, Table.get?_set, Storage.answer, Question.minted.injEq]

/-- All that an answer does to what a snapshot remembers. -/
theorem remembered_answer (s : Snapshot σ) (q q' : Question) :
    ((storage base).answer q s).2.remembered? q' =
      if q' = q then some ((storage base).answer q s).1 else s.remembered? q' := by
  cases hq : s.remembered? q with
  | some w =>
    rw [answer_of_remembered hq]
    split
    · next h => rw [h, hq]
    · rfl
  | none =>
    obtain ⟨t, hanswer, -, hremembered⟩ := answer_of_unknown hq
    rw [hanswer, hremembered]

/-! ## Lists of questions -/

theorem remembered_interview {s : Snapshot σ} {q : Question} {w : Word} (h : s.remembered? q = some w)
    (qs : List Question) : ((storage base).interview qs s).2.remembered? q = some w := by
  induction qs generalizing s with
  | nil => exact h
  | cons q' rest ih =>
    have hkept : ((storage base).answer q' s).2.remembered? q = some w := by
      rw [remembered_answer]
      split
      · next hq =>
        subst hq
        rw [answer_of_remembered h]
      · exact h
    exact ih hkept

/-- The answers are what is remembered in the end. -/
theorem interview_eq_remembered (s : Snapshot σ) (qs : List Question) :
    ((storage base).interview qs s).1.map some =
      qs.map ((storage base).interview qs s).2.remembered? := by
  induction qs generalizing s with
  | nil => rfl
  | cons q rest ih =>
    rw [Storage.interview_cons, List.map_cons, List.map_cons, ih]
    have hself : ((storage base).answer q s).2.remembered? q = some ((storage base).answer q s).1 := by
      rw [remembered_answer, if_pos rfl]
    rw [remembered_interview hself]

theorem isSome_remembered_interview (s : Snapshot σ) (qs : List Question) (q : Question) :
    (((storage base).interview qs s).2.remembered? q).isSome ↔ (s.remembered? q).isSome ∨ q ∈ qs := by
  induction qs generalizing s with
  | nil => simp only [Storage.interview, List.not_mem_nil, or_false]
  | cons q' rest ih =>
    rw [Storage.interview_cons, ih, remembered_answer, List.mem_cons]
    by_cases hq : q = q'
    · rw [if_pos hq]
      simp only [hq, Option.isSome_some, true_or, or_true]
    · rw [if_neg hq]
      simp only [hq, false_or]

/-- Values that agree with what is remembered in the end are the answers. -/
theorem interview_eq_map {s : Snapshot σ} {qs : List Question} {values : Question → Word}
    (h : ∀ q w, ((storage base).interview qs s).2.remembered? q = some w → values q = w) :
    ((storage base).interview qs s).1 = qs.map values := by
  apply List.map_injective_iff.mpr (Option.some_injective Word)
  rw [interview_eq_remembered, List.map_map]
  apply List.map_congr_left
  intro q hq
  obtain ⟨w, hw⟩ := Option.isSome_iff_exists.mp ((isSome_remembered_interview s qs q).mpr (.inr hq))
  rw [hw, Function.comp_apply, h q w hw]

/-! ## The journal of a snapshot -/

/-- The snapshot remembers what stands in the journal. Every question stands there once, and the storage answers these
questions as they are answered there when it is asked them from the start. -/
structure Faithful (base : Storage σ) (store : σ) (s : Snapshot (σ × Journal)) : Prop where
  remembered : ∀ q, s.remembered? q = s.base.2.lookup q
  nodup : (s.base.2.map Prod.fst).Nodup
  interview : base.interview (s.base.2.map Prod.fst) store = (s.base.2.map Prod.snd, s.base.1)

theorem faithful_ofBase (base : Storage σ) (store : σ) : Faithful base store (ofBase (store, [])) where
  remembered := by
    intro q
    cases q <;> rfl
  nodup := List.nodup_nil
  interview := rfl

theorem isSome_lookup_iff (journal : Journal) (q : Question) :
    (journal.lookup q).isSome ↔ q ∈ journal.map Prod.fst := by
  rw [List.lookup_isSome_iff, List.mem_map]
  constructor
  · rintro ⟨entry, hentry, hq⟩
    exact ⟨entry, hentry, (eq_of_beq hq).symm⟩
  · rintro ⟨entry, hentry, rfl⟩
    exact ⟨entry, hentry, beq_self_eq_true _⟩

-- A question that is known already reaches neither the storage nor the journal.
theorem Faithful.answer {store : σ} {s : Snapshot (σ × Journal)} (hs : Faithful base store s)
    (q : Question) : Faithful base store ((storage base.journaled).answer q s).2 := by
  cases hq : s.remembered? q with
  | some w =>
    rw [answer_of_remembered hq]
    exact hs
  | none =>
    obtain ⟨t, hanswer, hbase, hremembered⟩ :
        ∃ t, (storage base.journaled).answer q s = (_, t) ∧ _ := answer_of_unknown hq
    rw [Storage.answer_journaled] at hbase hremembered
    have hnew : q ∉ s.base.2.map Prod.fst := by
      rw [← isSome_lookup_iff, ← hs.remembered, hq]
      decide
    rw [hanswer]
    constructor
    · intro q'
      rw [hremembered, hbase, List.lookup_append, ← hs.remembered]
      by_cases h : q' = q
      · subst h
        rw [if_pos rfl, hq, List.lookup_cons_self]
        rfl
      · have hb : (q' == q) = false := beq_false_of_ne h
        rw [if_neg h, List.lookup_cons, hb]
        exact (Option.or_none).symm
    · rw [hbase, List.map_append]
      exact hs.nodup.append (List.nodup_singleton q) (List.disjoint_singleton.mpr hnew)
    · rw [hbase, List.map_append, Storage.interview_append, hs.interview, List.map_append]
      rfl

theorem Faithful.after {store : σ} {s : Snapshot (σ × Journal)} (hs : Faithful base store s)
    (qs : List Question) : Faithful base store ((storage base.journaled).interview qs s).2 := by
  induction qs generalizing s with
  | nil => exact hs
  | cons q rest ih => exact ih (hs.answer q)

def withoutJournal (s : Snapshot (σ × Journal)) : Snapshot σ := ⟨s.base.1, s.slots, s.minted⟩

theorem answer_withoutJournal (s : Snapshot (σ × Journal)) (q : Question) :
    (storage base).answer q s.withoutJournal =
      (((storage base.journaled).answer q s).1,
        ((storage base.journaled).answer q s).2.withoutJournal) := by
  cases q with
  | slot slot =>
    simp only [Storage.answer, storage, withoutJournal]
    cases s.slots.get? slot <;> rfl
  | minted account =>
    simp only [Storage.answer, storage, withoutJournal]
    cases s.minted.get? account <;> rfl

/-- A journal changes no answers. -/
theorem interview_withoutJournal (s : Snapshot (σ × Journal)) (qs : List Question) :
    (storage base).interview qs s.withoutJournal =
      (((storage base.journaled).interview qs s).1,
        ((storage base.journaled).interview qs s).2.withoutJournal) := by
  induction qs generalizing s with
  | nil => rfl
  | cons q rest ih => rw [Storage.interview_cons, answer_withoutJournal, ih, Storage.interview_cons]

end Snapshot

end TokenSale
