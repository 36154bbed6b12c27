import Mathlib.Data.List.DropRight
import TokenSale.Files.Path

/-!
# The path beside a path

The last name of a path tells a file from the directory it is in, if it is a name that leads down: the path beside it
with another extension then has the names before it and one name more. A path with fewer names has fewer characters:
`chars_sublist`. And a path is beside itself exactly if its last name has the extension already, behind something:
`stem_append_eq_self_iff`.
-/

namespace TokenSale.Files.Path

/-- A name that leads to something in a directory, and not to the directory itself or out of it. -/
def Descends (name : Name) : Prop := isIdle name = false ∧ name ≠ ['.', '.']

instance (name : Name) : Decidable (Descends name) := inferInstanceAs (Decidable (_ ∧ _))

theorem descends_of_mem {name : Name} {c : Char} (hc : c ∈ name) (hdot : c ≠ '.') : Descends name := by
  refine ⟨decide_eq_false ?_, ?_⟩
  · rintro (rfl | rfl)
    · cases hc
    · exact hdot (List.mem_singleton.mp hc)
  · rintro rfl
    rcases List.mem_cons.mp hc with h | h
    · exact hdot h
    · exact hdot (List.mem_singleton.mp h)

/-! ## Names at the end that stay where they are -/

theorem trimEnd_append_of_idle (names : List Name) {last : Name} (h : isIdle last = true) :
    trimEnd (names ++ [last]) = trimEnd names :=
  List.rdropWhile_concat_pos isIdle names last h

theorem trimEnd_append_of_not_idle (names : List Name) {last : Name} (h : isIdle last = false) :
    trimEnd (names ++ [last]) = names ++ [last] :=
  List.rdropWhile_concat_neg isIdle names last (Bool.eq_false_iff.mp h)

theorem trimEnd_sublist (names : List Name) : (trimEnd names).Sublist names :=
  (List.rdropWhile_prefix isIdle names).sublist

theorem trimEnd_trimEnd (names : List Name) : trimEnd (trimEnd names) = trimEnd names :=
  List.rdropWhile_idempotent isIdle names

/-! ## A last name -/

section

variable {p : Path} {outer : List Name} {last : Name}

theorem fileName?_of_descends (hnames : p.names = outer ++ [last]) (hlast : Descends last) :
    p.fileName? = some last := by
  rw [fileName?, hnames, trimEnd_append_of_not_idle outer hlast.1, List.getLast?_concat]
  exact Option.filter_some_pos (decide_eq_true hlast.2)

theorem parent?_of_descends (hnames : p.names = outer ++ [last]) (hlast : Descends last) :
    p.parent? = some { p with names := trimEnd outer } := by
  rw [parent?, hnames, trimEnd_append_of_not_idle outer hlast.1]
  cases h : outer ++ [last] with
  | nil => cases List.append_ne_nil_of_right_ne_nil outer (List.cons_ne_nil last []) h
  | cons name names =>
    show some { p with names := trimEnd (name :: names).dropLast } = _
    rw [← h, List.dropLast_concat]

theorem withExtension_of_descends (hnames : p.names = outer ++ [last]) (hlast : Descends last) (extension : String) :
    p.withExtension extension =
      { p with names := trimEnd outer ++ [stem last ++ '.' :: extension.toList] } := by
  rw [withExtension, parent?_of_descends hnames hlast, fileName?_of_descends hnames hlast]
  rfl

end

/-! ## Fewer names -/

theorem joinNames_sublist {few many : List Name} (h : few.Sublist many) :
    (joinNames few).Sublist (joinNames many) := by
  induction h with
  | slnil => exact List.Sublist.refl _
  | @cons few many name h ih =>
    by_cases hmany : many = []
    · subst hmany
      rw [List.sublist_nil.mp h]
      exact List.nil_sublist _
    · rw [joinNames_cons name hmany]
      exact (ih.cons '/').trans (List.sublist_append_right _ _)
  | @cons_cons few many name h ih =>
    by_cases hmany : many = []
    · subst hmany
      rw [List.sublist_nil.mp h]
    · rw [joinNames_cons name hmany]
      by_cases hfew : few = []
      · subst hfew
        have hname : joinNames [name] = name := by simp [joinNames, List.intercalate]
        rw [hname]
        exact List.sublist_append_left _ _
      · rw [joinNames_cons name hfew]
        exact (List.Sublist.refl name).append (ih.cons_cons '/')

theorem chars_sublist (start : Start) {few many : List Name} (h : few.Sublist many) :
    (Path.chars ⟨start, few⟩).Sublist (Path.chars ⟨start, many⟩) := by
  have hjoin := joinNames_sublist h
  cases start with
  | root => exact hjoin.cons_cons '/'
  | plain => exact hjoin
  | here =>
    cases few with
    | nil =>
      cases many with
      | nil => exact List.Sublist.refl _
      | cons name many => exact (List.nil_sublist _).cons_cons '.'
    | cons first few =>
      cases many with
      | nil => cases h
      | cons name many => exact (hjoin.cons_cons '/').cons_cons '.'

/-! ## The part before the last dot -/

section

variable {base extension : Name}

theorem dropWhile_reverse_append (base : Name) (h : '.' ∉ extension) :
    (base ++ '.' :: extension).reverse.dropWhile (· ≠ '.') = '.' :: base.reverse := by
  rw [List.reverse_append, List.reverse_cons, List.append_assoc, List.dropWhile_append_of_pos]
  · rfl
  · intro c hc
    exact decide_eq_true fun hdot => h (hdot ▸ List.mem_reverse.mp hc)

theorem stem_append (hbase : base ≠ []) (h : '.' ∉ extension) : stem (base ++ '.' :: extension) = base := by
  rw [stem, dropWhile_reverse_append base h]
  cases hreverse : base.reverse with
  | nil => exact absurd (List.reverse_eq_nil_iff.mp hreverse) hbase
  | cons c before =>
    show (c :: before).reverse = base
    rw [← hreverse, List.reverse_reverse]

/-- A name that starts with its only dot is taken whole. -/
theorem stem_dot_cons (h : '.' ∉ extension) : stem ('.' :: extension) = '.' :: extension := by
  rw [stem, ← List.nil_append ('.' :: extension), dropWhile_reverse_append [] h]
  rfl

/-- A name is that of its own stem with an extension exactly if it has the extension behind something. -/
theorem stem_append_eq_self_iff {name : Name} (h : '.' ∉ extension) :
    stem name ++ '.' :: extension = name ↔ ∃ base, base ≠ [] ∧ name = base ++ '.' :: extension := by
  constructor
  · intro hname
    refine ⟨stem name, fun hstem => ?_, hname.symm⟩
    rw [hstem, List.nil_append] at hname
    rw [← hname, stem_dot_cons h] at hstem
    cases hstem
  · rintro ⟨base, hbase, rfl⟩
    rw [stem_append hbase h]

end

/-- What may stand behind the last dot of a name. -/
def IsExtension (extension : String) : Prop := extension.toList ≠ [] ∧ '.' ∉ extension.toList

instance (extension : String) : Decidable (IsExtension extension) := inferInstanceAs (Decidable (_ ∧ _))

/-- The last name of a path is something with an extension. -/
def HasExtension (p : Path) (extension : String) : Prop :=
  ∃ base, base ≠ [] ∧ p.fileName? = some (base ++ '.' :: extension.toList)

theorem descends_append {extension : String} (h : IsExtension extension) (base : Name) :
    Descends (base ++ '.' :: extension.toList) := by
  obtain ⟨c, hc⟩ := List.exists_mem_of_ne_nil _ h.1
  refine descends_of_mem (List.mem_append_right base (List.mem_cons_of_mem '.' hc)) ?_
  rintro rfl
  exact h.2 hc

/-- The path beside a path has the same last name exactly if the last name has the extension already. -/
theorem hasExtension_iff {p : Path} {outer : List Name} {last : Name} {extension : String}
    (h : IsExtension extension) (hnames : p.names = outer ++ [last]) (hlast : Descends last) :
    p.HasExtension extension ↔ stem last ++ '.' :: extension.toList = last := by
  rw [HasExtension, fileName?_of_descends hnames hlast, stem_append_eq_self_iff h.2]
  constructor
  · rintro ⟨base, hbase, hname⟩
    exact ⟨base, hbase, Option.some.inj hname⟩
  · rintro ⟨base, hbase, hname⟩
    exact ⟨base, hbase, congrArg some hname⟩

end TokenSale.Files.Path
