/-!
# Tables

Finite maps as lists of entries with distinct keys. `get?` is the view: two short laws say what `set` does to
it.
-/

namespace TokenSale

/-- A finite map from `κ` to `α`. -/
structure Table (κ α : Type) where
  /-- The entries, the most recently set first. -/
  entries : List (κ × α)
  nodup : (entries.map Prod.fst).Nodup

namespace Table

variable {κ α : Type} [DecidableEq κ]

def empty : Table κ α := ⟨[], List.nodup_nil⟩

instance : EmptyCollection (Table κ α) := ⟨empty⟩
instance : Inhabited (Table κ α) := ⟨empty⟩

def get? (t : Table κ α) (k : κ) : Option α := t.entries.lookup k

/-- The value at a key, or a default where there is none. -/
def getD (t : Table κ α) (k : κ) (default : α) : α := (t.get? k).getD default

/-- Puts a value at a key, in place of what was there. -/
def set (t : Table κ α) (k : κ) (v : α) : Table κ α where
  entries := (k, v) :: t.entries.filter fun e => !decide (e.1 = k)
  nodup := by
    rw [List.map_cons, List.nodup_cons]
    refine ⟨?_, t.nodup.sublist ((List.filter_sublist).map _)⟩
    simp

@[simp] theorem get?_empty (k : κ) : (∅ : Table κ α).get? k = none := rfl

private theorem lookup_filter_ne (entries : List (κ × α)) {k k' : κ} (h : k' ≠ k) :
    (entries.filter fun e => !decide (e.1 = k)).lookup k' = entries.lookup k' := by
  induction entries with
  | nil => rfl
  | cons e entries ih =>
    obtain ⟨key, v⟩ := e
    by_cases hk : key = k
    · subst hk
      have : (k' == key) = false := by simpa using h
      simp [List.lookup_cons, this, ih]
    · simp [hk, List.lookup_cons, ih]

@[simp] theorem get?_set_self (t : Table κ α) (k : κ) (v : α) : (t.set k v).get? k = some v := by
  simp [get?, set]

theorem get?_set_of_ne (t : Table κ α) {k k' : κ} (v : α) (h : k' ≠ k) :
    (t.set k v).get? k' = t.get? k' := by
  have hb : (k' == k) = false := by simpa using h
  simp only [get?, set, List.lookup_cons, hb]
  exact lookup_filter_ne t.entries h

theorem get?_set (t : Table κ α) (k k' : κ) (v : α) :
    (t.set k v).get? k' = if k' = k then some v else t.get? k' := by
  split
  · next h => rw [h, get?_set_self]
  · next h => exact get?_set_of_ne t v h

theorem getD_set (t : Table κ α) (k k' : κ) (v d : α) :
    (t.set k v).getD k' d = if k' = k then v else t.getD k' d := by
  simp only [getD, get?_set]
  split <;> rfl

end Table

end TokenSale
