import TokenSale.Proofs.Assembly.Items
import TokenSale.Proofs.Assembly.Words

/-!
# The line that is refused

A line is refused for one of its own tokens, and a message that quotes a token quotes that one. Lines are read in their
order, so a text is refused for the first line that is refused after the lines before it: those lines alone are not
refused, and what follows the line makes no difference (`first_refused`).
-/

namespace TokenSale

/-- The token that a message quotes. An instruction without its operand is quoted by its mnemonic. -/
def AssemblyFault.quoted? : AssemblyFault → Option String
  | sourceArgument | unexpectedOperand _ => none
  | unknownDirective token | invalidConstant token | unknownInstruction token | invalidOperand _ token => some token
  | missingOperand i => some i.mnemonic

namespace Assembly

open Text (byteLength)

/-! ## Refused tokens -/

/-- A refusal of one of the given tokens. -/
def Blames (found : List Token) (r : Refusal) : Prop :=
  ∃ t ∈ found, r.1 = t.column ∧ ∀ name, r.2.quoted? = some name → name = t.text

theorem Blames.mono {found more : List Token} {r : Refusal} (h : Blames found r)
    (hsub : ∀ t ∈ found, t ∈ more) : Blames more r := by
  obtain ⟨t, ht, hblames⟩ := h
  exact ⟨t, hsub t ht, hblames⟩

theorem blames_of_quoted {found : List Token} {t : Token} {cause : AssemblyFault} (ht : t ∈ found)
    (h : cause.quoted? = some t.text) : Blames found (t.column, cause) := by
  refine ⟨t, ht, rfl, ?_⟩
  intro name hname
  exact Option.some.inj (hname.symm.trans h)

theorem blames_of_unquoted {found : List Token} {t : Token} {cause : AssemblyFault} (ht : t ∈ found)
    (h : cause.quoted? = none) : Blames found (t.column, cause) := by
  refine ⟨t, ht, rfl, ?_⟩
  intro name hname
  rw [h] at hname
  cases hname

theorem blames_of_constants {found : List Token} {r : Refusal} (h : constants found = .error r) :
    Blames found r := by
  induction found with
  | nil => cases h
  | cons t rest ih =>
    rw [constants] at h
    split at h
    · cases h
      exact blames_of_quoted List.mem_cons_self rfl
    · exact (ih (map_eq_error_iff.mp h)).mono fun t' ht' => List.mem_cons_of_mem t ht'

theorem blames_of_instruction {head : Token} {arguments : List Token} {r : Refusal}
    (h : instruction head arguments = .error r) : Blames (head :: arguments) r := by
  unfold instruction at h
  split at h
  · cases h
    exact blames_of_quoted List.mem_cons_self rfl
  · next i hi =>
    split at h
    · next t _ =>
      split at h
      · cases h
      · cases h
        exact blames_of_quoted (List.mem_cons_of_mem head List.mem_cons_self) rfl
    · cases h
      exact blames_of_quoted List.mem_cons_self (congrArg some (Instruction.mnemonic_of_ofMnemonic? hi))
    · cases h
    · next extra rest _ =>
      cases h
      exact blames_of_unquoted (List.mem_cons_of_mem head List.mem_cons_self) rfl

theorem blames_of_directive {head : Token} {arguments : List Token} {r : Refusal}
    (h : directive head arguments = .error r) : Blames (head :: arguments) r := by
  unfold directive at h
  split at h
  · split at h
    · cases h
    · next extra rest =>
      cases h
      exact blames_of_unquoted (List.mem_cons_of_mem head List.mem_cons_self) rfl
  · split at h
    · exact (blames_of_constants (map_eq_error_iff.mp h)).mono fun t ht => List.mem_cons_of_mem head ht
    · cases h
      exact blames_of_quoted List.mem_cons_self rfl

theorem blames_of_line {current : Section} {found : List Token} {r : Refusal}
    (h : line current found = .error r) : Blames found r := by
  cases found with
  | nil => cases h
  | cons head arguments =>
    unfold line at h
    dsimp only at h
    split at h
    · exact blames_of_directive h
    · cases current with
      | constants => exact blames_of_constants (map_eq_error_iff.mp h)
      | code => exact blames_of_instruction (map_eq_error_iff.mp h)

/-! ## Refused lines -/

/-- Lines are refused for the first one that is: the ones before it are read, one of its tokens is to blame, and what
follows it is not looked at. -/
theorem exists_refused {current : Section} {number : Nat} {lines : List (List Char)} {fault : Fault}
    (h : items current number lines = .error fault) :
    ∃ before content after column cause, lines = before ++ content :: after ∧
      fault = .assembly (number + before.length) column cause ∧ Blames (tokens content) (column, cause) ∧
      (∃ found, items current number before = .ok found) ∧
      ∀ rest, items current number (before ++ content :: rest) = .error fault := by
  induction lines generalizing current number with
  | nil => cases h
  | cons content rest ih =>
    cases hline : line current (tokens content) with
    | error r =>
      obtain ⟨column, cause⟩ := r
      rw [items_cons_of_error hline] at h
      cases h
      refine ⟨[], content, rest, column, cause, rfl, rfl, blames_of_line hline, ⟨[], rfl⟩, ?_⟩
      intro other
      exact items_cons_of_error hline number other
    | ok read =>
      obtain ⟨next, found⟩ := read
      rw [items_cons_of_ok hline] at h
      obtain ⟨before, refused, after, column, cause, hsplit, hfault, hblames, ⟨more, hmore⟩, hother⟩ :=
        ih (map_eq_error_iff.mp h)
      refine ⟨content :: before, refused, after, column, cause, ?_, ?_, hblames, ⟨found ++ more, ?_⟩, ?_⟩
      · rw [hsplit, List.cons_append]
      · rw [hfault, List.length_cons, Nat.add_assoc, Nat.add_comm 1]
      · rw [items_cons_of_ok hline, hmore]
        rfl
      · intro other
        rw [List.cons_append, items_cons_of_ok hline, hother]
        rfl

/-! ## Refused texts -/

/-- A text is refused for a line exactly when its lines are. -/
theorem assemble_eq_assembly_iff {text : String} {line column : Nat} {cause : AssemblyFault} :
    assemble text = .error (.assembly line column cause) ↔
      items .code 1 (Text.lines text) = .error (.assembly line column cause) := by
  rw [assemble]
  cases items .code 1 (Text.lines text) with
  | error fault =>
    constructor
    · intro h
      cases h
      rfl
    · intro h
      cases h
      rfl
  | ok found =>
    constructor
    · intro h
      have h' : Script.ofParts (sourcesOf found) (constantsOf found) = .error (.assembly line column cause) := h
      rcases ofParts_items found with ⟨-, s, hs⟩ | ⟨-, hmany⟩
      · rw [hs] at h'
        cases h'
      · rw [hmany] at h'
        cases h'
    · intro h
      cases h

/-- **A text is refused for its first refused line.** The text has the line, and the column is where a token of the
line stands, which is the token that the message quotes, if it quotes one. The lines before it alone, which are the
lines of a beginning of the text, are not refused for a line, and every text that goes on otherwise after the line is
refused in the same way. -/
theorem first_refused {text : String} {line column : Nat} {cause : AssemblyFault}
    (h : assemble text = .error (.assembly line column cause)) :
    (1 ≤ line ∧ line ≤ (Text.lines text).length) ∧
      (∃ before word after, (Text.lines text)[line - 1]? = some (before ++ word ++ after) ∧
        Stands before word after ∧ column = 1 + byteLength before ∧
        ∀ name, cause.quoted? = some name → name = String.ofList word) ∧
      (∃ beginning : String, beginning.toList <+: text.toList ∧
        Text.lines beginning = (Text.lines text).take (line - 1)) ∧
      (∀ earlier, Text.lines earlier = (Text.lines text).take (line - 1) →
        ∀ line' column' cause', assemble earlier ≠ .error (.assembly line' column' cause')) ∧
      ∀ other, (Text.lines other).take line = (Text.lines text).take line →
        assemble other = .error (.assembly line column cause) := by
  obtain ⟨before, content, after, column', cause', hlines, hfault, ⟨t, ht, hcolumn, hquoted⟩, ⟨found, hfound⟩,
    hother⟩ := exists_refused (assemble_eq_assembly_iff.mp h)
  cases hfault
  have hbefore : (Text.lines text).take (1 + before.length - 1) = before := by
    rw [Nat.add_sub_cancel_left, hlines, List.take_left]
  have hupto : (Text.lines text).take (1 + before.length) = before ++ [content] := by
    rw [hlines, Nat.add_comm, List.take_append, List.take_of_length_le (Nat.le_succ _), Nat.add_sub_cancel_left,
      List.take_succ_cons, List.take_zero]
  refine ⟨⟨Nat.le_add_right _ _, ?_⟩, ?_, Text.exists_prefix_lines _ text, ?_, ?_⟩
  · rw [hlines, List.length_append, List.length_cons]
    omega
  · obtain ⟨front, word, rest, hcontent, hstands, rfl⟩ := stands_of_mem_tokens ht
    refine ⟨front, word, rest, ?_, hstands, hcolumn, hquoted⟩
    rw [Nat.add_sub_cancel_left, hlines, List.getElem?_append_right (Nat.le_refl _), Nat.sub_self, ← hcontent]
    rfl
  · intro earlier hearlier line' column' cause' hrefused
    rw [hbefore] at hearlier
    rw [assemble_eq_assembly_iff, hearlier, hfound] at hrefused
    cases hrefused
  · intro other hsame
    rw [hupto] at hsame
    rw [assemble_eq_assembly_iff, ← List.take_append_drop (1 + before.length) (Text.lines other), hsame,
      List.append_assoc]
    exact hother _

/-- An operand that is refused after characters of several bytes, in a text with both kinds of line ends: another text
with the same first two lines is refused in the same way. -/
theorem first_refused_wideLine :
    assemble "ISZERO # é\r\n,  ADD,\u00a0é # 2\nSTOP" = .error (.assembly 2 10 (.invalidOperand .count "é")) ∧
      assemble "ISZERO # é\n,  ADD,\u00a0é # 2\r\n.code" = .error (.assembly 2 10 (.invalidOperand .count "é")) := by
  have h : assemble "ISZERO # é\r\n,  ADD,\u00a0é # 2\nSTOP" =
      .error (.assembly 2 10 (.invalidOperand .count "é")) := by rfl
  obtain ⟨-, -, -, -, hother⟩ := first_refused h
  exact ⟨h, hother _ (by decide)⟩

end Assembly

end TokenSale
