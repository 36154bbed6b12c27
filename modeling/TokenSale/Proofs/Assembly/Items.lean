import TokenSale.Assembly.Assembler

/-!
# Items and the scripts they make up

Lines are read one by one. Constants among items do not divide the code. The sources that items make up are always of
the shape that a script has, so items make up a script unless there are too many constants among them
(`ofParts_items`).
-/

namespace TokenSale.Assembly

section

variable {ε α β : Type} {x : Except ε α} {f : α → β}

theorem map_eq_ok_iff {b : β} : x.map f = .ok b ↔ ∃ a, x = .ok a ∧ f a = b := by
  cases x with
  | error e => simp [Except.map]
  | ok a => simp [Except.map]

theorem map_eq_error_iff {e : ε} : x.map f = .error e ↔ x = .error e := by
  cases x with
  | error e' => simp [Except.map]
  | ok a => simp [Except.map]

end

/-! ## Lines one by one -/

section

variable {current : Section} {content : List Char}

theorem items_cons_of_ok {next : Section} {found : List Item} (h : line current (tokens content) = .ok (next, found))
    (number : Nat) (rest : List (List Char)) :
    items current number (content :: rest) = (items next (number + 1) rest).map (found ++ ·) := by
  rw [items, h]

theorem items_cons_of_error {column : Nat} {cause : AssemblyFault}
    (h : line current (tokens content) = .error (column, cause)) (number : Nat) (rest : List (List Char)) :
    items current number (content :: rest) = .error (.assembly number column cause) := by
  rw [items, h]

end

/-! ## What items make up -/

theorem constantsOf_append (found more : List Item) :
    constantsOf (found ++ more) = constantsOf found ++ constantsOf more := List.filterMap_append

theorem constantsOf_constants (ws : List Word) : constantsOf (ws.map .constant) = ws := by
  rw [constantsOf, List.filterMap_map]
  exact List.filterMap_some

theorem codeOf_constants (ws : List Word) (more : List Item) :
    codeOf (ws.map .constant ++ more) = codeOf more := by
  induction ws with
  | nil => rfl
  | cons w rest ih => exact ih

theorem even_codeOf (found : List Item) :
    (codeOf found).1.length % 2 = 0 ∧ ∀ code ∈ (codeOf found).2, code.length % 2 = 0 := by
  induction found with
  | nil =>
    refine ⟨rfl, ?_⟩
    intro code hcode
    cases hcode
  | cons item rest ih =>
    obtain ⟨hfirst, hmore⟩ := ih
    cases item with
    | constant w => exact ⟨hfirst, hmore⟩
    | source =>
      refine ⟨rfl, ?_⟩
      intro code hcode
      rcases List.mem_cons.mp hcode with rfl | hcode
      · exact hfirst
      · exact hmore code hcode
    | instruction i operand =>
      refine ⟨?_, hmore⟩
      show ((codeOf rest).1.length + 1 + 1) % 2 = 0
      omega

theorem sourcesOf_ne_nil (found : List Item) : sourcesOf found ≠ [] := by
  rw [sourcesOf]
  rcases codeOf found with ⟨_ | ⟨b, code⟩, _ | ⟨first, sources⟩⟩
  · exact List.cons_ne_nil _ _
  · exact List.cons_ne_nil _ _
  · exact List.cons_ne_nil _ _
  · exact List.cons_ne_nil _ _

theorem even_sourcesOf (found : List Item) : ∀ code ∈ sourcesOf found, code.length % 2 = 0 := by
  obtain ⟨hfirst, hsources⟩ := even_codeOf found
  rw [sourcesOf]
  generalize codeOf found = parts at hfirst hsources ⊢
  intro code hcode
  split at hcode
  · rw [List.mem_singleton.mp hcode]
    rfl
  · exact hsources code hcode
  · rcases List.mem_cons.mp hcode with rfl | hcode
    · exact hfirst
    · exact hsources code hcode

/-- Items make up a script, or have too many constants. -/
theorem ofParts_items (found : List Item) :
    ((constantsOf found).length ≤ maxConstants ∧
        ∃ s, Script.ofParts (sourcesOf found) (constantsOf found) = .ok s) ∨
      (maxConstants < (constantsOf found).length ∧
        Script.ofParts (sourcesOf found) (constantsOf found) =
          .error (.tooManyConstants (constantsOf found).length maxConstants)) := by
  by_cases hfew : (constantsOf found).length ≤ maxConstants
  · let s : Script := ⟨⟨sourcesOf found, constantsOf found⟩, sourcesOf_ne_nil found, even_sourcesOf found, hfew⟩
    exact Or.inl ⟨hfew, s, s.ofParts_parts⟩
  · have hmany : maxConstants < (constantsOf found).length := Nat.not_le.mp hfew
    refine Or.inr ⟨hmany, ?_⟩
    have hshape : Script.shapeFault? (sourcesOf found) (constantsOf found) =
        some (.tooManyConstants (constantsOf found).length maxConstants) := by
      rw [Script.shapeFault?, if_neg (sourcesOf_ne_nil found), if_pos hmany]
    unfold Script.ofParts
    split
    · next fault h =>
      rw [hshape] at h
      cases h
      rfl
    · next h =>
      rw [hshape] at h
      cases h

end TokenSale.Assembly
