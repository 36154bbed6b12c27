import TokenSale.Text.Lines

/-!
# Lines that are written one after the other

Lines that hold no line break of their own, each followed by a line feed, make a text that has these lines:
`lines_join`. Conversely the first lines of a text are the lines of a text of their own, which is its beginning:
`exists_prefix_lines`. No line holds a line feed: `not_mem_of_mem_lines`.
-/

namespace TokenSale.Text

/-- Characters that stay on one line. -/
def Unbroken (cs : List Char) : Prop := ∀ c ∈ cs, c ≠ '\n' ∧ c ≠ '\r'

instance (cs : List Char) : Decidable (Unbroken cs) := List.decidableBAll (fun c => c ≠ '\n' ∧ c ≠ '\r') cs

theorem Unbroken.append {first rest : List Char} (hfirst : Unbroken first) (hrest : Unbroken rest) :
    Unbroken (first ++ rest) := by
  intro c hc
  rcases List.mem_append.mp hc with h | h
  · exact hfirst c h
  · exact hrest c h

theorem dropReturn_of_unbroken {cs : List Char} (h : Unbroken cs) : dropReturn cs = cs := by
  rw [dropReturn, if_neg]
  intro hlast
  exact (h '\r' (List.mem_of_getLast? hlast)).2 rfl

theorem splitLines_append {cs : List Char} (h : Unbroken cs) (rest : List Char) :
    splitLines (cs ++ '\n' :: rest) = (cs, some (lines (String.ofList rest))) := by
  induction cs with
  | nil =>
    rw [List.nil_append, splitLines, lines, String.toList_ofList]
    rcases splitLines rest with ⟨first, _ | more⟩
    · rfl
    · rfl
  | cons c cs ih =>
    have hc : c ≠ '\n' := (h c List.mem_cons_self).1
    rw [List.cons_append, splitLines, ih fun d hd => h d (List.mem_cons_of_mem c hd)]
    exact if_neg hc

theorem lines_of_splitLines {text : String} {first : List Char} {rest : List (List Char)}
    (h : splitLines text.toList = (first, some rest)) : lines text = dropReturn first :: rest := by
  rw [lines, h]

/-- A line that is ended by a line feed. -/
theorem lines_append {line : String} (h : Unbroken line.toList) (rest : String) :
    lines (line ++ "\n" ++ rest) = line.toList :: lines rest := by
  have hsplit : splitLines (line ++ "\n" ++ rest).toList = (line.toList, some (lines rest)) := by
    have hchars : (line ++ "\n" ++ rest).toList = line.toList ++ '\n' :: rest.toList := by
      rw [String.toList_append, String.toList_append, List.append_assoc]
      rfl
    rw [hchars, splitLines_append h, String.ofList_toList]
  rw [lines_of_splitLines hsplit, dropReturn_of_unbroken h]

theorem lines_join {written : List String} (h : ∀ line ∈ written, Unbroken line.toList) :
    lines (String.join (written.map (· ++ "\n"))) = written.map String.toList := by
  induction written with
  | nil => rfl
  | cons line rest ih =>
    rw [List.map_cons, String.join_cons, lines_append (h line List.mem_cons_self),
      ih fun l hl => h l (List.mem_cons_of_mem line hl), List.map_cons]

/-! ## The first lines of a text -/

/-- The characters up to the line feed that ends the `n`th line, with this line feed. -/
def firstLines : Nat → List Char → List Char
  | 0, _ => []
  | _ + 1, [] => []
  | n + 1, c :: cs => c :: firstLines (if c = '\n' then n else n + 1) cs

theorem firstLines_zero (cs : List Char) : firstLines 0 cs = [] := by
  cases cs <;> rfl

theorem firstLines_isPrefix (n : Nat) (cs : List Char) : firstLines n cs <+: cs := by
  induction cs generalizing n with
  | nil => cases n <;> exact List.nil_prefix
  | cons c cs ih =>
    cases n with
    | zero => exact List.nil_prefix
    | succ n => exact List.cons_prefix_cons.mpr ⟨rfl, ih _⟩

theorem splitLines_feed (cs : List Char) : splitLines ('\n' :: cs) = ([], some (lines (String.ofList cs))) :=
  @splitLines_append [] (by decide) cs

theorem splitLines_cons {c : Char} (h : c ≠ '\n') (cs : List Char) :
    splitLines (c :: cs) = (c :: (splitLines cs).1, (splitLines cs).2) := by
  rw [splitLines]
  exact if_neg h

theorem lines_of_take {n : Nat} {beginning cs : List Char}
    (h : splitLines beginning = ((splitLines cs).1, (splitLines cs).2.map (·.take n))) :
    lines (String.ofList beginning) = (lines (String.ofList cs)).take (n + 1) := by
  rw [lines, lines, String.toList_ofList, String.toList_ofList, h]
  rcases splitLines cs with ⟨first, _ | rest⟩
  · by_cases hfirst : first = []
    · simp [hfirst]
    · simp [hfirst]
  · rfl

-- Before its first line feed a text and its beginning are the same, so the induction is on the characters.
theorem splitLines_firstLines (n : Nat) (cs : List Char) :
    splitLines (firstLines (n + 1) cs) = ((splitLines cs).1, (splitLines cs).2.map (·.take n)) := by
  induction cs generalizing n with
  | nil => rfl
  | cons c cs ih =>
    rw [firstLines]
    by_cases hc : c = '\n'
    · subst hc
      rw [if_pos rfl, splitLines_feed, splitLines_feed, Option.map_some]
      cases n with
      | zero =>
        rw [firstLines_zero]
        rfl
      | succ n => rw [lines_of_take (ih n)]
    · rw [if_neg hc, splitLines_cons hc, splitLines_cons hc, ih n]

theorem lines_firstLines (n : Nat) (cs : List Char) :
    lines (String.ofList (firstLines n cs)) = (lines (String.ofList cs)).take n := by
  cases n with
  | zero =>
    rw [firstLines_zero]
    rfl
  | succ n => exact lines_of_take (splitLines_firstLines n cs)

theorem exists_prefix_lines (n : Nat) (text : String) :
    ∃ beginning : String, beginning.toList <+: text.toList ∧ lines beginning = (lines text).take n := by
  refine ⟨String.ofList (firstLines n text.toList), ?_, ?_⟩
  · rw [String.toList_ofList]
    exact firstLines_isPrefix n text.toList
  · rw [lines_firstLines, String.ofList_toList]

/-! ## What a line holds -/

theorem not_mem_dropReturn {c : Char} {cs : List Char} (h : c ∉ cs) : c ∉ dropReturn cs := by
  rw [dropReturn]
  split
  · exact fun hc => h ((List.dropLast_sublist cs).subset hc)
  · exact h

theorem not_mem_of_mem_lines_of_splitLines {text : String} (hfirst : '\n' ∉ (splitLines text.toList).1)
    (hmore : ∀ more, (splitLines text.toList).2 = some more → ∀ line ∈ more, '\n' ∉ line) {line : List Char}
    (h : line ∈ lines text) : '\n' ∉ line := by
  rw [lines] at h
  rcases hsplit : splitLines text.toList with ⟨first, _ | more⟩
  · simp only [hsplit] at h hfirst
    split at h
    · cases h
    · rw [List.mem_singleton.mp h]
      exact hfirst
  · simp only [hsplit] at h hfirst
    rcases List.mem_cons.mp h with rfl | h
    · exact not_mem_dropReturn hfirst
    · exact hmore more (by rw [hsplit]) line h

theorem not_mem_splitLines (cs : List Char) :
    '\n' ∉ (splitLines cs).1 ∧ ∀ more, (splitLines cs).2 = some more → ∀ line ∈ more, '\n' ∉ line := by
  induction cs with
  | nil => exact ⟨nofun, nofun⟩
  | cons c cs ih =>
    by_cases hc : c = '\n'
    · subst hc
      rw [splitLines_feed]
      refine ⟨nofun, ?_⟩
      rintro more hmore line hline
      cases hmore
      apply not_mem_of_mem_lines_of_splitLines _ _ hline
      · rw [String.toList_ofList]
        exact ih.1
      · rw [String.toList_ofList]
        exact ih.2
    · rw [splitLines_cons hc]
      refine ⟨?_, ih.2⟩
      intro hmem
      rcases List.mem_cons.mp hmem with hfeed | hmem
      · exact hc hfeed.symm
      · exact ih.1 hmem

/-- A line holds no line feed. -/
theorem not_mem_of_mem_lines {text : String} {line : List Char} (h : line ∈ lines text) : '\n' ∉ line :=
  not_mem_of_mem_lines_of_splitLines (not_mem_splitLines _).1 (not_mem_splitLines _).2 h

end TokenSale.Text
