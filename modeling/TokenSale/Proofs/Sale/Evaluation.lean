import TokenSale.Proofs.Machine.Snapshot
import TokenSale.Proofs.Sale.Quotes

/-!
# One evaluation sees one state

A pricing reads its storage through a snapshot. So it quotes what its script leaves over a storage that does not change
during the run: the one that answers each question as the storage answered it first. And it asks the storage for each
slot and each account that its script reads, once: `Pricing.evaluate_sees_one_state`.
-/

namespace TokenSale

namespace Quote

/-- The values that a quote was read from. -/
def values (q : Quote) : List Word := [q.maxUnits, q.unitPrice]

end Quote

namespace Pricing

variable {σ τ : Type}

/-- The run of the script over any storage. -/
def runOver (p : Pricing) (scene : Scene σ) (base : Storage τ) (t : τ) :
    Except Fault (List Word) × Machine τ :=
  (Machine.evaluate p.script p.maxSteps (scene.withStorage base) Script.entry outputWidth).perform (.idle t)

/-- The questions that the script asks any storage. -/
def questionsOver (p : Pricing) (scene : Scene σ) (base : Storage τ) (t : τ) : List Question :=
  Machine.questions p.script p.maxSteps (scene.withStorage base) Script.entry (.idle t)

theorem length_of_runOver {p : Pricing} {scene : Scene σ} {base : Storage τ} {t : τ}
    {values : List Word} (h : (p.runOver scene base t).1 = .ok values) : values.length = 2 :=
  Machine.length_of_evaluate (Prod.ext h rfl)

/-! ## The journal of an evaluation -/

/-- What an evaluation asks of its storage and what it is answered. -/
def journal (p : Pricing) (scene : Scene σ) (store : σ) : Journal :=
  ((p.evaluate (scene.withStorage scene.storage.journaled)).perform ((store, []), [])).2.1.2

/-- The questions of the script when a journal is kept behind its snapshot. -/
def asked (p : Pricing) (scene : Scene σ) (store : σ) : List Question :=
  p.questionsOver scene (Snapshot.storage scene.storage.journaled) (.ofBase (store, []))

/-- The snapshot that they are asked, after the last. -/
def memory (p : Pricing) (scene : Scene σ) (store : σ) : Snapshot (σ × Journal) :=
  ((Snapshot.storage scene.storage.journaled).interview (p.asked scene store) (.ofBase (store, []))).2

theorem faithful_memory (p : Pricing) (scene : Scene σ) (store : σ) :
    (p.memory scene store).Faithful scene.storage store :=
  (Snapshot.faithful_ofBase scene.storage store).after _

/-- A storage that answers these questions alike makes no difference to the run. -/
theorem runOver_eq (p : Pricing) (scene : Scene σ) (store : σ) {base : Storage τ} {t : τ}
    (h : (base.interview (p.asked scene store) t).1 =
      ((Snapshot.storage scene.storage.journaled).interview (p.asked scene store)
        (.ofBase (store, []))).1) :
    p.runOver scene base t =
      ((p.runOnce (scene.withStorage scene.storage.journaled) (store, [])).1,
        (p.runOnce (scene.withStorage scene.storage.journaled) (store, [])).2.withStore
          (base.interview (p.asked scene store) t).2) :=
  Machine.perform_evaluate_withStore h

theorem store_runOnce_journaled (p : Pricing) (scene : Scene σ) (store : σ) :
    (p.runOnce (scene.withStorage scene.storage.journaled) (store, [])).2.store = p.memory scene store :=
  Machine.store_evaluate _ _ _ _ _ _

/-- A journal makes no difference either. -/
theorem runOnce_journaled (p : Pricing) (scene : Scene σ) (store : σ) :
    p.runOnce scene store =
      ((p.runOnce (scene.withStorage scene.storage.journaled) (store, [])).1,
        (p.runOnce (scene.withStorage scene.storage.journaled) (store, [])).2.withStore
          (p.memory scene store).withoutJournal) := by
  have hinterview : (Snapshot.storage scene.storage).interview (p.asked scene store) (.ofBase store) =
      (_, (p.memory scene store).withoutJournal) :=
    Snapshot.interview_withoutJournal (.ofBase (store, [])) _
  have hrun : p.runOver scene (Snapshot.storage scene.storage) (.ofBase store) = _ :=
    p.runOver_eq scene store (congrArg Prod.fst hinterview)
  rw [hinterview] at hrun
  exact hrun

/-- The same quote and the same log, and the storage is left the same. -/
theorem perform_evaluate_journaled (p : Pricing) (scene : Scene σ) (store : σ) (log : List Record) :
    (p.evaluate (scene.withStorage scene.storage.journaled)).perform ((store, []), log) =
      (((p.evaluate scene).perform (store, log)).1,
        (((p.evaluate scene).perform (store, log)).2.1, (p.memory scene store).base.2),
        ((p.evaluate scene).perform (store, log)).2.2) := by
  have hstore := p.store_runOnce_journaled scene store
  rw [evaluate, evaluate, Action.perform_ofFunction, Action.perform_ofFunction]
  dsimp only
  rw [runOnce_journaled p scene store, ← hstore]
  rcases p.runOnce (scene.withStorage scene.storage.journaled) (store, []) with ⟨fault | values, m⟩
  · rfl
  · rfl

theorem journal_eq (p : Pricing) (scene : Scene σ) (store : σ) :
    p.journal scene store = (p.memory scene store).base.2 := by
  rw [journal, perform_evaluate_journaled]

theorem mem_journal_iff (p : Pricing) (scene : Scene σ) (store : σ) (q : Question) :
    q ∈ (p.journal scene store).map Prod.fst ↔ q ∈ p.asked scene store := by
  rw [journal_eq, ← Snapshot.isSome_lookup_iff, ← (p.faithful_memory scene store).remembered, memory,
    Snapshot.isSome_remembered_interview]
  constructor
  · rintro (h | h)
    · cases q <;> cases h
    · exact h
  · exact Or.inr

theorem store_evaluate (p : Pricing) (scene : Scene σ) (store : σ) (log : List Record) :
    ((p.evaluate scene).perform (store, log)).2.1 = (p.memory scene store).base.1 := by
  rw [evaluate, Action.perform_ofFunction]
  dsimp only
  rw [runOnce_journaled p scene store]
  rcases p.runOnce (scene.withStorage scene.storage.journaled) (store, []) with ⟨fault | values, m⟩
  · rfl
  · rfl

/-! ## The storage of first answers -/

/-- A quote holds all that its script leaves. -/
theorem map_values_evaluate (p : Pricing) (scene : Scene σ) (store : σ) (log : List Record) :
    ((p.evaluate scene).perform (store, log)).1.map Quote.values = (p.runOnce scene store).1 := by
  have hlength : ∀ values, (p.runOnce scene store).1 = .ok values → values.length = 2 := by
    intro values
    exact length_of_runOver
  rw [evaluate_of_runOnce rfl log]
  cases hrun : (p.runOnce scene store).1 with
  | error fault => rfl
  | ok values =>
    obtain ⟨a, b, rfl⟩ := List.length_eq_two.mp (hlength values hrun)
    rfl

section FirstAnswers

variable {p : Pricing} {scene : Scene σ} {store : σ} {values : Question → Word}
  (hvalues : ∀ q w, (p.journal scene store).lookup q = some w → values q = w)

include hvalues

theorem interview_ofAnswers_asked :
    ((Storage.ofAnswers values).interview (p.asked scene store) ()).1 =
      ((Snapshot.storage scene.storage.journaled).interview (p.asked scene store)
        (.ofBase (store, []))).1 := by
  rw [Storage.interview_ofAnswers]
  apply Eq.symm
  apply Snapshot.interview_eq_map
  intro q w hq
  have hlookup : (p.memory scene store).base.2.lookup q = some w := by
    rw [← (p.faithful_memory scene store).remembered]
    exact hq
  apply hvalues
  rw [journal_eq, hlookup]

theorem runOver_ofAnswers :
    (p.runOver scene (.ofAnswers values) ()).1 = (p.runOnce scene store).1 := by
  rw [p.runOver_eq scene store (interview_ofAnswers_asked hvalues), p.runOnce_journaled scene store]

theorem questionsOver_ofAnswers :
    p.questionsOver scene (.ofAnswers values) () = p.asked scene store :=
  Machine.questions_withStore (interview_ofAnswers_asked hvalues)

end FirstAnswers

theorem length_journal (p : Pricing) (scene : Scene σ) (store : σ) :
    (p.journal scene store).length = (p.asked scene store).toFinset.card := by
  have hnodup : ((p.journal scene store).map Prod.fst).Nodup := by
    rw [journal_eq]
    exact (p.faithful_memory scene store).nodup
  have hset : ((p.journal scene store).map Prod.fst).toFinset = (p.asked scene store).toFinset := by
    apply Finset.ext
    intro q
    rw [List.mem_toFinset, List.mem_toFinset, mem_journal_iff]
  rw [← hset, List.toFinset_card_of_nodup hnodup, List.length_map]

/-- **One evaluation sees one state.** A pricing quotes what its script leaves over the storage of first answers, and
fails as the script fails there. It asks its own storage what the script asks there, each slot and each account once. -/
theorem evaluate_sees_one_state (p : Pricing) (scene : Scene σ) (store : σ) (log : List Record)
    (values : Question → Word)
    (hvalues : ∀ q w, (p.journal scene store).lookup q = some w → values q = w) :
    ((p.evaluate scene).perform (store, log)).1.map Quote.values =
        (p.runOver scene (.ofAnswers values) ()).1 ∧
      (p.evaluate (scene.withStorage scene.storage.journaled)).perform ((store, []), log) =
        (((p.evaluate scene).perform (store, log)).1,
          (((p.evaluate scene).perform (store, log)).2.1, p.journal scene store),
          ((p.evaluate scene).perform (store, log)).2.2) ∧
      scene.storage.interview ((p.journal scene store).map Prod.fst) store =
        ((p.journal scene store).map Prod.snd, ((p.evaluate scene).perform (store, log)).2.1) ∧
      ((p.journal scene store).map Prod.fst).Nodup ∧
      (p.journal scene store).length =
        (p.questionsOver scene (.ofAnswers values) ()).toFinset.card ∧
      ∀ q, q ∈ (p.journal scene store).map Prod.fst ↔ q ∈ p.questionsOver scene (.ofAnswers values) () := by
  rw [map_values_evaluate, runOver_ofAnswers hvalues, questionsOver_ofAnswers hvalues,
    perform_evaluate_journaled, store_evaluate, journal_eq]
  have hfaithful := p.faithful_memory scene store
  refine ⟨rfl, rfl, hfaithful.interview, hfaithful.nodup, ?_, ?_⟩
  · rw [← journal_eq, length_journal]
  · intro q
    rw [← journal_eq, mem_journal_iff]

/-- Twice the units ever minted and twice those of the buyer, who is named by two words, and the time. -/
def twicePricing : Pricing where
  script :=
    { sources := [[Instruction.storage.opcode, Slot.totalMinted.code,
        Instruction.context.opcode, 0, Instruction.numberMinted.opcode, 0,
        Instruction.context.opcode, 1, Instruction.numberMinted.opcode, 0,
        Instruction.storage.opcode, Slot.totalMinted.code,
        (Instruction.aggregate .add).opcode, 4, Instruction.blockTimestamp.opcode, 0]]
      constants := [] }
  summary := ⟨8, 2, 4, 2⟩
  maxSteps := 8
  analyzed := by decide
  finalDepth_eq := rfl
  instructions_le := Nat.le_refl 8

def twiceScene : Scene UInt64 := ⟨.drifting, .none, 5, [1, ⟨1 + Address.size, by decide⟩]⟩

def firstAnswers : Question → Word
  | .slot _ => 1
  | .minted _ => .ofUInt64 2

theorem journal_twicePricing :
    twicePricing.journal twiceScene 0 = [(.slot .totalMinted, 1), (.minted (.ofWord 1), .ofUInt64 2)] := by
  rw [journal_eq]
  decide

/-- Storage that counts its reads is read twice, though four instructions read from it. -/
theorem evaluate_twicePricing :
    (∀ q w, (twicePricing.journal twiceScene 0).lookup q = some w → firstAnswers q = w) ∧
      ((twicePricing.evaluate twiceScene).perform (0, [])).1.map Quote.values =
        .ok [.ofUInt64 6, .ofUInt64 5] ∧
      (twicePricing.questionsOver twiceScene (.ofAnswers firstAnswers) ()).length = 4 ∧
      (twicePricing.questionsOver twiceScene (.ofAnswers firstAnswers) ()).toFinset.card = 2 := by
  have hvalues : ∀ q w, (twicePricing.journal twiceScene 0).lookup q = some w → firstAnswers q = w := by
    intro q w h
    have hmem : (q, w) ∈ twicePricing.journal twiceScene 0 := by
      obtain ⟨before, after, heq, -⟩ := List.lookup_eq_some_iff.mp h
      rw [heq]
      exact List.mem_append_right _ List.mem_cons_self
    rw [journal_twicePricing, List.mem_cons, List.mem_singleton] at hmem
    rcases hmem with h | h
    · cases h
      rfl
    · cases h
      rfl
  obtain ⟨hquote, -, -, -, hlength, -⟩ :=
    twicePricing.evaluate_sees_one_state twiceScene 0 [] firstAnswers hvalues
  have hrun : (twicePricing.runOver twiceScene (.ofAnswers firstAnswers) ()).1 =
      .ok [.ofUInt64 6, .ofUInt64 5] := by
    decide +kernel
  rw [journal_twicePricing] at hlength
  exact ⟨hvalues, hquote.trans hrun, rfl, hlength.symm⟩

end Pricing

end TokenSale
