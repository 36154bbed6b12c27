import Mathlib.Data.Finset.Card
import TokenSale.Proofs.Expr.Scripts

/-!
# The constants of a script

The literals of expressions can be read off the expressions (`Expr.literalsOf`), in the order in which their values are
needed. The constants of the script list each literal once, in the order of first use: `listsFirstUses_pool`. There are
as many constants as there are distinct literals (`length_pool`).
-/

namespace TokenSale

/-- The values of a list, each once and in the order of their first uses. -/
structure ListsFirstUses (uses values : List Word) : Prop where
  mem_iff : ∀ w, w ∈ values ↔ w ∈ uses
  nodup : values.Nodup
  ordered : values.Pairwise fun v w => uses.idxOf v < uses.idxOf w

namespace Expr

/-! ## Literals of expressions -/

mutual

/-- The literals of an expression in the order of use. -/
def literalsOf : Expr → List Word
  | constant w => [w]
  | context _ | stack _ | storage _ | blockTimestamp => []
  | numberMinted e | isZero e => literalsOf e
  | aggregate _ operands => literalsOfAll operands
  | compare _ a b => literalsOf a ++ literalsOf b
  | ifElse condition chosen otherwise => literalsOf condition ++ literalsOf chosen ++ literalsOf otherwise
  | timeCmp time _ => [.ofUInt64 time]
  | between first last => [.ofUInt64 first, .ofUInt64 last]
  | tierLevel source e | hasMinTier source e _ => literalsOf e ++ [source.toWord]

/-- The literals of several expressions in the order of use. -/
def literalsOfAll : List Expr → List Word
  | [] => []
  | e :: rest => literalsOf e ++ literalsOfAll rest

end

@[simp] theorem literals_append (ops rest : List Operation) :
    literals (ops ++ rest) = literals ops ++ literals rest :=
  List.filterMap_append

theorem literals_aggregateAll (op : Aggregate) (pending : Nat) (parts : List (List Operation)) :
    literals (aggregateAll op pending parts) = literals parts.flatten := by
  induction parts generalizing pending with
  | nil => rfl
  | cons part rest ih =>
    rw [aggregateAll, List.flatten_cons, literals_append]
    split
    · rw [literals_append]
      exact congrArg _ (ih 1)
    · rw [literals_append, ih]

mutual

theorem literals_fragment (e : Expr) : literals (fragment e) = literalsOf e := by
  cases e with
  | constant | context | stack | storage | blockTimestamp | timeCmp | between => rfl
  | numberMinted e | isZero e =>
    rw [fragment, literals_append, literals_fragment e, literalsOf]
    exact List.append_nil _
  | aggregate op operands =>
    rw [fragment, literals_aggregateAll, literals_fragments operands, literalsOf]
  | compare r a b =>
    rw [fragment, literals_append, literals_append, literals_fragment a, literals_fragment b, literalsOf]
    exact List.append_nil _
  | ifElse condition chosen otherwise =>
    rw [fragment, literals_append, literals_append, literals_append, literals_fragment condition,
      literals_fragment chosen, literals_fragment otherwise, literalsOf]
    exact List.append_nil _
  | tierLevel source e | hasMinTier source e =>
    rw [fragment, literals_append, literals_fragment e, literalsOf]
    rfl

theorem literals_fragments (es : List Expr) : literals (fragments es).flatten = literalsOfAll es := by
  cases es with
  | nil => rfl
  | cons e rest =>
    rw [fragments, List.flatten_cons, literals_append, literals_fragment e, literals_fragments rest, literalsOfAll]

end

/-! ## Constants of scripts -/

theorem nodup_distinct (ws : List Word) : (distinct ws).Nodup := by
  induction ws with
  | nil => exact List.nodup_nil
  | cons w ws ih =>
    rw [distinct, List.nodup_cons]
    exact ⟨fun h => of_decide_eq_true (List.mem_filter.mp h).2 rfl, ih.filter _⟩

/-- The values after the first are others, so they come later. -/
theorem ordered_distinct (ws : List Word) :
    (distinct ws).Pairwise fun v w => ws.idxOf v < ws.idxOf w := by
  induction ws with
  | nil => exact List.Pairwise.nil
  | cons w ws ih =>
    have hother : ∀ v ∈ (distinct ws).filter (· ≠ w), (w :: ws).idxOf v = ws.idxOf v + 1 := by
      intro v hv
      have hne : v ≠ w := of_decide_eq_true (List.mem_filter.mp hv).2
      exact List.idxOf_cons_ne ws hne.symm
    rw [distinct, List.pairwise_cons]
    refine ⟨fun v hv => ?_, (ih.filter _).imp_of_mem fun {u v} hu hv hlt => ?_⟩
    · rw [List.idxOf_cons_self, hother v hv]
      exact Nat.succ_pos _
    · rw [hother u hu, hother v hv]
      exact Nat.succ_lt_succ hlt

theorem listsFirstUses_pool (es : List Expr) :
    ListsFirstUses (literalsOfAll es) (pool (fragments es).flatten) := by
  rw [pool, literals_fragments]
  exact ⟨fun _ => mem_distinct, nodup_distinct _, ordered_distinct _⟩

theorem length_pool (es : List Expr) :
    (pool (fragments es).flatten).length = (literalsOfAll es).toFinset.card := by
  have hpool := listsFirstUses_pool es
  rw [← List.toFinset_card_of_nodup hpool.nodup]
  congr 1
  ext w
  rw [List.mem_toFinset, List.mem_toFinset]
  exact hpool.mem_iff w

end Expr

end TokenSale
