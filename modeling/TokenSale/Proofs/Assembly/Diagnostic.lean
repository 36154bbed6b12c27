import Mathlib.Data.List.DropRight
import TokenSale.Assembly.Diagnostic
import TokenSale.Proofs.Assembly.Refusal
import TokenSale.Theory.Numerals

/-!
# Where the caret stands

A diagnostic shows the line of a refused token behind a gutter with the number of the line, and below it a caret behind an
indent. The gutter is wider than the frame of the indent, and the indent counts the bytes before the token where the line
has characters. So the caret stands below the token only where the one happens to make up for the other:
`caret_below_token_iff`.
-/

namespace TokenSale.Assembly

open Text (byteLength)

namespace Diagnostic

/-- What stands before the line of a text that is shown. -/
def gutter (line : Nat) : List Char := padLeft 4 (toString line).toList ++ " | ".toList

/-- What stands before the caret. -/
def indent (column : Nat) : List Char := "  | ".toList ++ List.replicate (column - 1) ' '

/-- A shown text that ends with a line of a text behind some characters, and below it a caret behind others. -/
structure Shows (shown : String) (content before indent : List Char) : Prop where
  ends : ∃ head, shown.toList =
    head ++ '\n' :: (before ++ dropReturns content) ++ '\n' :: (indent ++ ['^']) ++ ['\n']
  echo_unbroken : '\n' ∉ before ++ dropReturns content
  indent_unbroken : '\n' ∉ indent

/-! ## The parts of a diagnostic -/

theorem length_gutter (line : Nat) : (gutter line).length = max 4 (toString line).length + 3 := by
  have hwidth : (padLeft 4 (toString line).toList).length = max 4 (toString line).length := by
    rw [padLeft, List.length_append, List.length_replicate, String.length_toList]
    omega
  rw [gutter, List.length_append, hwidth]
  rfl

theorem length_indent (column : Nat) : (indent column).length = 4 + (column - 1) := by
  rw [indent, List.length_append, List.length_replicate]
  rfl

theorem not_mem_gutter (line : Nat) : '\n' ∉ gutter line := by
  intro h
  rcases List.mem_append.mp h with h | h
  · rcases List.mem_append.mp h with h | h
    · cases List.eq_of_mem_replicate h
    · rw [Decimal.toList_toString] at h
      cases Decimal.isDigit_of_mem_digits h
  · revert h
    decide

theorem not_mem_indent (column : Nat) : '\n' ∉ indent column := by
  intro h
  rcases List.mem_append.mp h with h | h
  · revert h
    decide
  · cases List.eq_of_mem_replicate h

theorem dropReturns_isPrefix (content : List Char) : dropReturns content <+: content :=
  List.rdropWhile_prefix _ content

/-- What does not end in a carriage return is kept when those after it are dropped. -/
theorem prefix_dropReturns {front : List Char} (h : front.getLast? ≠ some '\r') (rest : List Char) :
    front <+: dropReturns (front ++ rest) := by
  show front <+: (front ++ rest).rdropWhile (· = '\r')
  induction rest using List.reverseRecOn with
  | nil =>
    have hself : front.rdropWhile (· = '\r') = front := by
      refine List.rdropWhile_eq_self_iff.mpr fun hne hlast => h ?_
      rw [List.getLast?_eq_some_getLast hne, of_decide_eq_true hlast]
    exact ⟨[], by rw [List.append_nil, hself]⟩
  | append_singleton rest c ih =>
    rw [← List.append_assoc, List.rdropWhile_concat]
    split
    · exact ih
    · rw [List.append_assoc]
      exact List.prefix_append front (rest ++ [c])

/-- The characters of lines that are written one after the other. -/
theorem toList_joined (written : List String) :
    (String.join (written.map (· ++ "\n"))).toList = written.flatMap fun line => line.toList ++ ['\n'] := by
  induction written with
  | nil => rfl
  | cons line written ih =>
    rw [List.map_cons, String.join_cons, String.toList_append, String.toList_append, ih, List.flatMap_cons]
    rfl

theorem shows_render {d : Diagnostic} {content : List Char} (h : d.echo = some content) (hcontent : '\n' ∉ content) :
    Shows d.render content (gutter d.line) (indent d.column) where
  ends := by
    obtain ⟨above, hlines⟩ : ∃ above, d.lines = above ++ ["  |", echoLine d.line content, caretLine d.column] :=
      ⟨[s!"error: {d.message}", s!" --> {d.file}:{d.line}:{d.column}"], by rw [lines, h]⟩
    refine ⟨above.flatMap (fun line => line.toList ++ ['\n']) ++ "  |".toList, ?_⟩
    have hecho : (echoLine d.line content).toList = gutter d.line ++ dropReturns content := String.toList_ofList
    have hcaret : (caretLine d.column).toList = indent d.column ++ ['^'] := String.toList_ofList
    rw [render, hlines, toList_joined, List.flatMap_append]
    simp only [List.flatMap_cons, List.flatMap_nil, hecho, hcaret, List.append_assoc, List.cons_append, List.nil_append,
      List.append_nil]
  echo_unbroken := by
    intro hmem
    rcases List.mem_append.mp hmem with hmem | hmem
    · exact not_mem_gutter d.line hmem
    · exact hcontent ((dropReturns_isPrefix content).subset hmem)
  indent_unbroken := not_mem_indent d.column

end Diagnostic

/-! ## The refused token -/

/-- A text is refused for a token, which stands in its line where the column says. -/
theorem exists_stands_of_refused {text : String} {line column : Nat} {cause : AssemblyFault}
    (h : assemble text = .error (.assembly line column cause)) :
    ∃ before word after, (Text.lines text)[line - 1]? = some (before ++ word ++ after) ∧
      Stands before word after ∧ column = 1 + byteLength before := by
  obtain ⟨earlier, content, later, column', cause', hlines, hfault, ⟨t, ht, hcolumn, -⟩, -, -⟩ :=
    exists_refused (assemble_eq_assembly_iff.mp h)
  cases hfault
  obtain ⟨before, word, after, hcontent, hstands, rfl⟩ := stands_of_mem_tokens ht
  refine ⟨before, word, after, ?_, hstands, hcolumn⟩
  rw [Nat.add_sub_cancel_left, hlines, List.getElem?_append_right (Nat.le_refl _), Nat.sub_self, ← hcontent]
  rfl

/-- A word ends in no carriage return. -/
theorem Stands.getLast?_ne {before word after : List Char} (h : Stands before word after) :
    (before ++ word).getLast? ≠ some '\r' := by
  rw [List.getLast?_append_of_ne_nil _ h.isWord.ne_nil]
  intro hlast
  cases h.isWord.not_separator '\r' (List.mem_of_getLast? hlast)

open Diagnostic in
/-- **The caret is below the token only by chance.** A text that is refused for one of its lines is reported with a
diagnostic that shows this line and, below it, a caret, and the refused token is in the line as it is shown. Before
the token are a gutter, with three characters more than the number of the line, which takes up at least four, and the
characters before it in its line. Before the caret are four characters and as many more as there are bytes before the
token. So both are in one column exactly if the characters before the token have as many bytes more than there are of
them as the number of the line takes up, less one. -/
theorem caret_below_token_iff {file text : String} {line column : Nat} {cause : AssemblyFault}
    (h : assemble text = .error (.assembly line column cause)) :
    ∃ before word after gutter indent, (Text.lines text)[line - 1]? = some (before ++ word ++ after) ∧
      Stands before word after ∧ column = 1 + byteLength before ∧
      Shows (report file text (.assembly line column cause)).message (before ++ word ++ after) gutter indent ∧
      before ++ word <+: dropReturns (before ++ word ++ after) ∧
      gutter.length = max 4 (toString line).length + 3 ∧ indent.length = 4 + byteLength before ∧
      (indent.length = (gutter ++ before).length ↔
        byteLength before = before.length + (max 4 (toString line).length - 1)) := by
  obtain ⟨before, word, after, hline, hstands, hcolumn⟩ := exists_stands_of_refused h
  have hindent : (indent column).length = 4 + byteLength before := by
    rw [length_indent, hcolumn, Nat.add_sub_cancel_left]
  refine ⟨before, word, after, gutter line, indent column, hline, hstands, hcolumn, ?_, ?_, length_gutter line,
    hindent, ?_⟩
  · exact shows_render (d := ofText file text line column cause.message) hline
      (Text.not_mem_of_mem_lines (List.mem_of_getElem? hline))
  · exact prefix_dropReturns hstands.getLast?_ne after
  · rw [hindent, List.length_append, length_gutter]
    omega

/-- A name that stands for no instruction, on the second line behind two blanks. -/
def indentedText : String := "ADD 2\n  FOO"

theorem assemble_indentedText :
    assemble indentedText = .error (.assembly 2 3 (.unknownInstruction "FOO")) := rfl

open Diagnostic in
theorem caret_below_token_iff_indentedText :
    assemble indentedText = .error (.assembly 2 3 (.unknownInstruction "FOO")) ∧
      ∃ before word after gutter indent, (Text.lines indentedText)[2 - 1]? = some (before ++ word ++ after) ∧
        Stands before word after ∧ 3 = 1 + byteLength before ∧
        Shows (report "sale.msa" indentedText (.assembly 2 3 (.unknownInstruction "FOO"))).message
          (before ++ word ++ after) gutter indent ∧
        before ++ word <+: dropReturns (before ++ word ++ after) ∧
        gutter.length = max 4 (toString 2).length + 3 ∧ indent.length = 4 + byteLength before ∧
        (indent.length = (gutter ++ before).length ↔
          byteLength before = before.length + (max 4 (toString 2).length - 1)) :=
  ⟨assemble_indentedText, caret_below_token_iff assemble_indentedText⟩

open Diagnostic in
/-- The caret is three columns before the token. -/
theorem caret_before_token_indentedText :
    assemble indentedText = .error (.assembly 2 3 (.unknownInstruction "FOO")) ∧
      (report "sale.msa" indentedText (.assembly 2 3 (.unknownInstruction "FOO"))).message =
        "error: unknown instruction 'FOO'\n --> sale.msa:2:3\n  |\n" ++
          "   2 |   FOO\n" ++
          "  |   ^\n" ∧
      Stands "  ".toList "FOO".toList [] ∧ Shows (report "sale.msa" indentedText
        (.assembly 2 3 (.unknownInstruction "FOO"))).message "  FOO".toList "   2 | ".toList "  |   ".toList ∧
      "  |   ".toList.length + 3 = ("   2 | ".toList ++ "  ".toList).length := by
  refine ⟨assemble_indentedText, by decide +kernel, ?_, ?_, rfl⟩
  · have hblank : ∀ c ∈ "  ".toList, c = ' ' := fun c hc =>
      List.eq_of_mem_replicate (show c ∈ List.replicate 2 ' ' from hc)
    refine ⟨by decide, fun c hc => ?_, fun c hc => ?_, nofun⟩
    · rw [hblank c hc]
      decide
    · rw [hblank c (List.mem_of_getLast? hc)]
      rfl
  · exact shows_render (d := ofText "sale.msa" indentedText 2 3 _) rfl (by decide)

end TokenSale.Assembly
