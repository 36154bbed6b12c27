import Mathlib.Data.List.Forall2
import TokenSale.Proofs.Assembly.Items
import TokenSale.Proofs.Assembly.Words

/-!
# The grammar of assembly

A text is read by the words of its lines; blank lines do not count. A line that starts with a dot is a directive. A
line below `.constants` holds constants, any other line one instruction, and `.constants` may be followed by constants
itself. A text of this form with no more constants than an operand can name is a script (`assemble_iff_grammatical`):
its constants are those of the text in their order, and it has a source for every `.source`, one more before them if
instructions come before any directive, and an empty one if that makes none.
-/

namespace TokenSale.Assembly

/-! ## Lines -/

/-- Whether a line is a directive. -/
def isDirective (line : List String) : Bool := line.head?.bind (·.toList.head?) = some '.'

/-- The name of the latest directive among lines. -/
def latest? (earlier : List (List String)) : Option String :=
  (earlier.filter isDirective).getLast?.bind List.head?

/-- What a line holds. -/
inductive Kind
  | directive
  | constants
  | instruction
deriving DecidableEq

/-- A line that is not blank. -/
structure Entry where
  /-- The lines before it that are not blank. -/
  earlier : List (List String)
  words : List String

/-- A line that is no directive holds constants if the latest directive is `.constants`, else an instruction. -/
def Entry.kind (e : Entry) : Kind :=
  if isDirective e.words then .directive
  else if latest? e.earlier = some ".constants" then .constants
  else .instruction

/-- Lines with the lines before them; `earlier` come before all of them. -/
def entriesFrom (earlier : List (List String)) : List (List String) → List Entry
  | [] => []
  | line :: rest => ⟨earlier, line⟩ :: entriesFrom (earlier ++ [line]) rest

/-- The lines of a text that are not blank. -/
def entries (text : String) : List Entry := entriesFrom [] (((Text.lines text).map words).filter (· ≠ []))

/-! ## The grammar -/

/-- The words of an instruction: the mnemonic, and the operand if the instruction takes one. -/
inductive Writes : List String → Instruction → UInt8 → Prop
  | explicit {i : Instruction} {token : String} {operand : UInt8} :
      i.operandKind.isExplicit = true → i.operandKind.parse? token = some operand →
      Writes [i.mnemonic, token] i operand
  | bare {i : Instruction} : i.operandKind.isExplicit = false → Writes [i.mnemonic] i 0

/-- What a line has to be. -/
def Entry.Fits (e : Entry) : Prop :=
  match e.kind with
  | .directive =>
    e.words = [".source"] ∨ ∃ inline, e.words = ".constants" :: inline ∧ ∀ w ∈ inline, (constant? w).isSome
  | .constants => ∀ w ∈ e.words, (constant? w).isSome
  | .instruction => ∃ i operand, Writes e.words i operand

/-- The words of a line that are constants. -/
def Entry.constantWords (e : Entry) : List String :=
  match e.kind with
  | .directive => if e.words.head? = some ".constants" then e.words.tail else []
  | .constants => e.words
  | .instruction => []

/-- The words of lines that are constants, in their order. -/
def constantWords (es : List Entry) : List String := es.flatMap Entry.constantWords

/-- The lines that hold instructions. -/
def instructionLines (es : List Entry) : List (List String) :=
  (es.filter (·.kind = .instruction)).map Entry.words

/-- The lines of instructions of every source: those before the first `.source`, if there are any, and those after each
one. -/
def sourceInstructions (es : List Entry) : List (List (List String)) :=
  match (es.splitOnP (·.words = [".source"])).map instructionLines with
  | [] :: marked => if marked = [] then [[]] else marked
  | all => all

/-- Lines of instructions and their code, two bytes a line. -/
inductive Codes : List (List String) → List UInt8 → Prop
  | nil : Codes [] []
  | cons {line : List String} {i : Instruction} {operand : UInt8} {rest : List (List String)} {code : List UInt8} :
      Writes line i operand → Codes rest code → Codes (line :: rest) (i.opcode :: operand :: code)

/-- What a text has to be. -/
structure Grammatical (text : String) : Prop where
  fits : ∀ e ∈ entries text, e.Fits
  few : (constantWords (entries text)).length ≤ maxConstants

/-! ## What a line yields -/

/-- The items of a line that fits. -/
def Yields (e : Entry) (found : List Item) : Prop :=
  match e.kind with
  | .directive =>
    (e.words = [".source"] ∧ found = [.source]) ∨
      ∃ inline, e.words = ".constants" :: inline ∧
        ∃ ws : List Word, inline.map constant? = ws.map some ∧ found = ws.map .constant
  | .constants => ∃ ws : List Word, e.words.map constant? = ws.map some ∧ found = ws.map .constant
  | .instruction => ∃ i operand, Writes e.words i operand ∧ found = [.instruction i operand]

theorem exists_values_iff {tokens : List String} :
    (∃ ws : List Word, tokens.map constant? = ws.map some) ↔ ∀ w ∈ tokens, (constant? w).isSome := by
  induction tokens with
  | nil =>
    constructor
    · intro _ w hw
      cases hw
    · intro _
      exact ⟨[], rfl⟩
  | cons token rest ih =>
    rw [List.forall_mem_cons, ← ih]
    constructor
    · rintro ⟨ws, hws⟩
      rw [List.map_cons] at hws
      obtain ⟨w, more, -, hw, hmore⟩ := List.map_eq_cons_iff.mp hws.symm
      rw [← hw]
      exact ⟨rfl, more, hmore.symm⟩
    · rintro ⟨htoken, more, hmore⟩
      obtain ⟨w, hw⟩ := Option.isSome_iff_exists.mp htoken
      refine ⟨w :: more, ?_⟩
      rw [List.map_cons, List.map_cons, hw, hmore]

theorem exists_yields {e : Entry} (h : e.Fits) : ∃ found, Yields e found := by
  rw [Entry.Fits] at h
  simp only [Yields]
  cases hkind : e.kind with
  | directive =>
    rw [hkind] at h
    rcases h with hwords | ⟨inline, hwords, hinline⟩
    · exact ⟨_, Or.inl ⟨hwords, rfl⟩⟩
    · obtain ⟨ws, hws⟩ := exists_values_iff.mpr hinline
      exact ⟨_, Or.inr ⟨inline, hwords, ws, hws, rfl⟩⟩
  | constants =>
    rw [hkind] at h
    obtain ⟨ws, hws⟩ := exists_values_iff.mpr h
    exact ⟨_, ws, hws, rfl⟩
  | instruction =>
    rw [hkind] at h
    obtain ⟨i, operand, hwrites⟩ := h
    exact ⟨_, i, operand, hwrites, rfl⟩

theorem Yields.fits {e : Entry} {found : List Item} (h : Yields e found) : e.Fits := by
  rw [Yields] at h
  rw [Entry.Fits]
  cases hkind : e.kind with
  | directive =>
    rw [hkind] at h
    rcases h with ⟨hwords, -⟩ | ⟨inline, hwords, ws, hws, -⟩
    · exact Or.inl hwords
    · exact Or.inr ⟨inline, hwords, exists_values_iff.mp ⟨ws, hws⟩⟩
  | constants =>
    rw [hkind] at h
    obtain ⟨ws, hws, -⟩ := h
    exact exists_values_iff.mp ⟨ws, hws⟩
  | instruction =>
    rw [hkind] at h
    obtain ⟨i, operand, hwrites, -⟩ := h
    exact ⟨i, operand, hwrites⟩

theorem exists_yields_all {es : List Entry} (h : ∀ e ∈ es, e.Fits) : ∃ founds, List.Forall₂ Yields es founds := by
  induction es with
  | nil => exact ⟨[], .nil⟩
  | cons e es ih =>
    obtain ⟨found, hfound⟩ := exists_yields (h e List.mem_cons_self)
    obtain ⟨more, hmore⟩ := ih fun e' he' => h e' (List.mem_cons_of_mem e he')
    exact ⟨found :: more, .cons hfound hmore⟩

theorem fits_of_yields_all {es : List Entry} {founds : List (List Item)} (h : List.Forall₂ Yields es founds) :
    ∀ e ∈ es, e.Fits := by
  induction h with
  | nil =>
    intro e he
    cases he
  | cons hyields _ ih =>
    intro e he
    rcases List.mem_cons.mp he with rfl | he
    · exact hyields.fits
    · exact ih e he

/-! ## What is read -/

/-- The section that follows lines. -/
def sectionAfter (earlier : List (List String)) : Section :=
  if latest? earlier = some ".constants" then .constants else .code

theorem latest?_concat_of_directive {line : List String} (h : isDirective line = true)
    (earlier : List (List String)) : latest? (earlier ++ [line]) = line.head? := by
  rw [latest?, List.filter_append, List.filter_cons_of_pos h, List.filter_nil, List.getLast?_concat, Option.bind_some]

theorem latest?_concat_of_not_directive {line : List String} (h : isDirective line = false)
    (earlier : List (List String)) : latest? (earlier ++ [line]) = latest? earlier := by
  rw [latest?, List.filter_append, List.filter_cons_of_neg (Bool.not_eq_true _ ▸ h), List.filter_nil, List.append_nil,
    latest?]

theorem constants_eq_ok_iff {tokens : List Token} {found : List Item} :
    constants tokens = .ok found ↔
      ∃ ws : List Word, (tokens.map Token.text).map constant? = ws.map some ∧ found = ws.map .constant := by
  induction tokens generalizing found with
  | nil =>
    constructor
    · intro h
      cases h
      exact ⟨[], rfl, rfl⟩
    · rintro ⟨ws, hws, rfl⟩
      rw [List.map_eq_nil_iff.mp hws.symm]
      rfl
  | cons t rest ih =>
    constructor
    · intro h
      rw [constants] at h
      split at h
      · cases h
      · next w hw =>
        obtain ⟨more, hmore, rfl⟩ := map_eq_ok_iff.mp h
        obtain ⟨ws, hws, rfl⟩ := ih.mp hmore
        refine ⟨w :: ws, ?_, rfl⟩
        rw [List.map_cons, List.map_cons, List.map_cons, hw, hws]
    · rintro ⟨ws, hws, rfl⟩
      rw [List.map_cons, List.map_cons] at hws
      obtain ⟨w, more, rfl, hw, hmore⟩ := List.map_eq_cons_iff.mp hws.symm
      rw [constants, ← hw]
      dsimp only
      rw [ih.mpr ⟨more, hmore.symm, rfl⟩]
      rfl

theorem instruction_eq_ok_iff {head : Token} {arguments : List Token} {item : Item} :
    instruction head arguments = .ok item ↔
      ∃ i operand, Writes (head.text :: arguments.map Token.text) i operand ∧ item = .instruction i operand := by
  constructor
  · intro h
    unfold instruction at h
    split at h
    · cases h
    · next i hi =>
      rw [← Instruction.mnemonic_of_ofMnemonic? hi]
      split at h
      · next t hexplicit =>
        split at h
        · next operand hoperand =>
          cases h
          exact ⟨i, operand, .explicit hexplicit hoperand, rfl⟩
        · cases h
      · cases h
      · next hbare =>
        cases h
        exact ⟨i, 0, .bare hbare, rfl⟩
      · cases h
  · rintro ⟨i, operand, hwrites, rfl⟩
    generalize hwords : head.text :: arguments.map Token.text = words at hwrites
    cases hwrites with
    | explicit hexplicit hoperand =>
      obtain ⟨hhead, harguments⟩ := List.cons.inj hwords
      obtain ⟨t, rfl, rfl⟩ := List.map_eq_singleton_iff.mp harguments
      rw [instruction, hhead, Instruction.ofMnemonic?_mnemonic]
      dsimp only
      rw [hexplicit]
      dsimp only
      rw [hoperand]
    | bare hbare =>
      obtain ⟨hhead, harguments⟩ := List.cons.inj hwords
      rw [List.map_eq_nil_iff.mp harguments, instruction, hhead, Instruction.ofMnemonic?_mnemonic]
      dsimp only
      rw [hbare]

theorem directive_eq_ok_iff {head : Token} {arguments : List Token} {next : Section} {found : List Item} :
    directive head arguments = .ok (next, found) ↔
      (head.text = ".source" ∧ arguments = [] ∧ next = .code ∧ found = [.source]) ∨
        (head.text = ".constants" ∧ next = .constants ∧ constants arguments = .ok found) := by
  unfold directive
  by_cases hsource : head.text = ".source"
  · have hconstants : head.text ≠ ".constants" := by
      rw [hsource]
      decide
    rw [if_pos hsource]
    cases arguments with
    | nil => simp [hsource, eq_comm]
    | cons extra rest => simp [hconstants]
  · rw [if_neg hsource]
    by_cases hconstants : head.text = ".constants"
    · rw [if_pos hconstants, map_eq_ok_iff]
      simp [hconstants, and_comm, eq_comm]
    · rw [if_neg hconstants]
      simp [hsource, hconstants]

theorem kind_of_directive {line : List String} (h : isDirective line = true) (earlier : List (List String)) :
    Entry.kind ⟨earlier, line⟩ = .directive := if_pos h

theorem kind_of_not_directive {line : List String} (h : isDirective line = false) (earlier : List (List String)) :
    Entry.kind ⟨earlier, line⟩ = if latest? earlier = some ".constants" then .constants else .instruction :=
  if_neg (Bool.not_eq_true _ ▸ h)

theorem directive_eq_ok_iff_yields {head : Token} {arguments : List Token} (hhead : head.isDirective = true)
    {earlier : List (List String)} {next : Section} {found : List Item} :
    directive head arguments = .ok (next, found) ↔
      Yields ⟨earlier, head.text :: arguments.map Token.text⟩ found ∧
        next = sectionAfter (earlier ++ [head.text :: arguments.map Token.text]) := by
  have hdirective : isDirective (head.text :: arguments.map Token.text) = true := hhead
  rw [directive_eq_ok_iff, Yields, kind_of_directive hdirective, sectionAfter, latest?_concat_of_directive hdirective,
    List.head?_cons]
  constructor
  · rintro (⟨htext, rfl, rfl, rfl⟩ | ⟨htext, rfl, hfound⟩)
    · rw [htext]
      exact ⟨Or.inl ⟨rfl, rfl⟩, rfl⟩
    · rw [htext]
      exact ⟨Or.inr ⟨_, rfl, constants_eq_ok_iff.mp hfound⟩, rfl⟩
  · rintro ⟨⟨hwords, rfl⟩ | ⟨inline, hwords, hfound⟩, rfl⟩
    · obtain ⟨htext, harguments⟩ := List.cons.inj hwords
      rw [htext]
      exact Or.inl ⟨rfl, List.map_eq_nil_iff.mp harguments, rfl, rfl⟩
    · obtain ⟨htext, rfl⟩ := List.cons.inj hwords
      rw [htext]
      exact Or.inr ⟨rfl, rfl, constants_eq_ok_iff.mpr hfound⟩

theorem line_eq_ok_iff_of_not_directive {head : Token} {arguments : List Token} (hhead : head.isDirective = false)
    {earlier : List (List String)} {next : Section} {found : List Item} :
    line (sectionAfter earlier) (head :: arguments) = .ok (next, found) ↔
      Yields ⟨earlier, head.text :: arguments.map Token.text⟩ found ∧ next = sectionAfter earlier := by
  have hdirective : isDirective (head.text :: arguments.map Token.text) = false := hhead
  unfold line
  dsimp only
  rw [Yields, kind_of_not_directive hdirective, sectionAfter, hhead, if_neg Bool.false_ne_true]
  by_cases hlatest : latest? earlier = some ".constants"
  · rw [if_pos hlatest, if_pos hlatest]
    dsimp only
    rw [map_eq_ok_iff]
    constructor
    · rintro ⟨more, hmore, hsame⟩
      cases hsame
      exact ⟨constants_eq_ok_iff.mp hmore, rfl⟩
    · rintro ⟨hfound, rfl⟩
      exact ⟨found, constants_eq_ok_iff.mpr hfound, rfl⟩
  · rw [if_neg hlatest, if_neg hlatest]
    dsimp only
    rw [map_eq_ok_iff]
    constructor
    · rintro ⟨item, hitem, hsame⟩
      cases hsame
      obtain ⟨i, operand, hwrites, rfl⟩ := instruction_eq_ok_iff.mp hitem
      exact ⟨⟨i, operand, hwrites, rfl⟩, rfl⟩
    · rintro ⟨⟨i, operand, hwrites, rfl⟩, rfl⟩
      exact ⟨_, instruction_eq_ok_iff.mpr ⟨i, operand, hwrites, rfl⟩, rfl⟩

/-- What is read from the tokens of a line is what the line yields. -/
theorem line_eq_ok_iff {earlier : List (List String)} {tokens : List Token} (hne : tokens ≠ []) {next : Section}
    {found : List Item} :
    line (sectionAfter earlier) tokens = .ok (next, found) ↔
      Yields ⟨earlier, tokens.map Token.text⟩ found ∧ next = sectionAfter (earlier ++ [tokens.map Token.text]) := by
  cases tokens with
  | nil => exact absurd rfl hne
  | cons head arguments =>
    cases hhead : head.isDirective with
    | true =>
      unfold line
      dsimp only
      rw [hhead, if_pos rfl]
      exact directive_eq_ok_iff_yields hhead
    | false =>
      have hdirective : isDirective ((head :: arguments).map Token.text) = false := hhead
      rw [sectionAfter.eq_1 (earlier ++ _), latest?_concat_of_not_directive hdirective, ← sectionAfter]
      exact line_eq_ok_iff_of_not_directive hhead

theorem items_cons_of_blank {content : List Char} (h : words content = []) (current : Section) (number : Nat)
    (rest : List (List Char)) : items current number (content :: rest) = items current (number + 1) rest := by
  have htokens : tokens content = [] := by
    rw [← map_text_tokens] at h
    exact List.map_eq_nil_iff.mp h
  have hline : line current (tokens content) = .ok (current, []) := by
    rw [htokens]
    rfl
  rw [items_cons_of_ok hline]
  exact congrFun Except.map_id _

/-- The items that are read are what the lines that are not blank yield. -/
theorem items_eq_ok_iff {earlier : List (List String)} {number : Nat} {lines : List (List Char)} {found : List Item} :
    items (sectionAfter earlier) number lines = .ok found ↔
      ∃ founds, List.Forall₂ Yields (entriesFrom earlier ((lines.map words).filter (· ≠ []))) founds ∧
        found = founds.flatten := by
  induction lines generalizing earlier number found with
  | nil =>
    constructor
    · intro h
      cases h
      exact ⟨[], .nil, rfl⟩
    · rintro ⟨founds, hfounds, rfl⟩
      cases hfounds
      rfl
  | cons content rest ih =>
    rw [List.map_cons]
    by_cases hblank : words content = []
    · rw [items_cons_of_blank hblank, List.filter_cons_of_neg (by simp [hblank])]
      exact ih
    · have hne : tokens content ≠ [] := by
        intro h
        rw [← map_text_tokens, h] at hblank
        exact hblank rfl
      rw [List.filter_cons_of_pos (by simp [hblank]), entriesFrom]
      constructor
      · intro h
        cases hline : line (sectionAfter earlier) (tokens content) with
        | error r =>
          rw [items_cons_of_error hline] at h
          cases h
        | ok read =>
          obtain ⟨next, here⟩ := read
          obtain ⟨hyields, rfl⟩ := (line_eq_ok_iff hne).mp hline
          rw [items_cons_of_ok hline] at h
          obtain ⟨more, hmore, rfl⟩ := map_eq_ok_iff.mp h
          rw [map_text_tokens] at hyields hmore
          obtain ⟨founds, hfounds, rfl⟩ := ih.mp hmore
          exact ⟨here :: founds, .cons hyields hfounds, rfl⟩
      · rintro ⟨founds, hfounds, rfl⟩
        obtain ⟨here, more, hyields, hmore, rfl⟩ := List.forall₂_cons_left_iff.mp hfounds
        have hline : line (sectionAfter earlier) (tokens content) =
            .ok (sectionAfter (earlier ++ [words content]), here) :=
          (line_eq_ok_iff hne).mpr ⟨map_text_tokens content ▸ hyields, by rw [map_text_tokens]⟩
        rw [items_cons_of_ok hline, ih.mpr ⟨more, hmore, rfl⟩]
        rfl

/-! ## What the lines make up -/

theorem Yields.constants {e : Entry} {found : List Item} (h : Yields e found) :
    (constantsOf found).map some = e.constantWords.map constant? := by
  rw [Yields] at h
  rw [Entry.constantWords]
  cases hkind : e.kind with
  | directive =>
    rw [hkind] at h
    rcases h with ⟨hwords, rfl⟩ | ⟨inline, hwords, ws, hws, rfl⟩
    · rw [hwords]
      rfl
    · rw [hwords, constantsOf_constants]
      exact hws.symm
  | constants =>
    rw [hkind] at h
    obtain ⟨ws, hws, rfl⟩ := h
    rw [constantsOf_constants]
    exact hws.symm
  | instruction =>
    rw [hkind] at h
    obtain ⟨i, operand, -, rfl⟩ := h
    rfl

theorem constants_of_yields_all {es : List Entry} {founds : List (List Item)} (h : List.Forall₂ Yields es founds) :
    (constantsOf founds.flatten).map some = (constantWords es).map constant? := by
  induction h with
  | nil => rfl
  | cons hyields _ ih =>
    rw [List.flatten_cons, constantsOf_append, List.map_append, hyields.constants, ih, constantWords, constantWords,
      List.flatMap_cons, List.map_append]

theorem length_constants_of_yields_all {es : List Entry} {founds : List (List Item)}
    (h : List.Forall₂ Yields es founds) : (constantsOf founds.flatten).length = (constantWords es).length := by
  have hlengths := congrArg List.length (constants_of_yields_all h)
  rwa [List.length_map, List.length_map] at hlengths

theorem ne_source_of_kind {e : Entry} (h : e.kind ≠ .directive) : e.words ≠ [".source"] := by
  intro hwords
  apply h
  rw [Entry.kind, hwords]
  exact if_pos (by decide)

theorem instructionLines_cons_of_ne {e : Entry} (h : e.kind ≠ .instruction) (es : List Entry) :
    instructionLines (e :: es) = instructionLines es := by
  rw [instructionLines, List.filter_cons_of_neg (by simp [h]), ← instructionLines]

theorem instructionLines_cons {e : Entry} (h : e.kind = .instruction) (es : List Entry) :
    instructionLines (e :: es) = e.words :: instructionLines es := by
  rw [instructionLines, List.filter_cons_of_pos (by simp [h]), List.map_cons, ← instructionLines]

/-- The code of items is the code of the lines that hold instructions, divided where a source starts. -/
theorem codes_of_yields_all {es : List Entry} {founds : List (List Item)} (h : List.Forall₂ Yields es founds) :
    ∃ first marked, es.splitOnP (·.words = [".source"]) = first :: marked ∧
      Codes (instructionLines first) (codeOf founds.flatten).1 ∧
        List.Forall₂ Codes (marked.map instructionLines) (codeOf founds.flatten).2 := by
  induction h with
  | nil => exact ⟨[], [], List.splitOnP_nil, .nil, .nil⟩
  | @cons e found es founds hyields _ ih =>
    obtain ⟨first, marked, hsplit, hfirst, hmarked⟩ := ih
    rw [List.splitOnP_cons_eq_if_modifyHead, hsplit, List.flatten_cons]
    rw [Yields] at hyields
    cases hkind : e.kind with
    | directive =>
      rw [hkind] at hyields
      rcases hyields with ⟨hwords, rfl⟩ | ⟨inline, hwords, ws, -, rfl⟩
      · rw [if_pos (by simp [hwords])]
        exact ⟨[], _, rfl, .nil, .cons hfirst hmarked⟩
      · rw [if_neg (by simp [hwords]), codeOf_constants]
        refine ⟨e :: first, marked, rfl, ?_, hmarked⟩
        rwa [instructionLines_cons_of_ne (by simp [hkind])]
    | constants =>
      have hsource : e.words ≠ [".source"] := ne_source_of_kind (by simp [hkind])
      rw [hkind] at hyields
      obtain ⟨ws, -, rfl⟩ := hyields
      rw [if_neg (by simp [hsource]), codeOf_constants]
      refine ⟨e :: first, marked, rfl, ?_, hmarked⟩
      rwa [instructionLines_cons_of_ne (by simp [hkind])]
    | instruction =>
      have hsource : e.words ≠ [".source"] := ne_source_of_kind (by simp [hkind])
      rw [hkind] at hyields
      obtain ⟨i, operand, hwrites, rfl⟩ := hyields
      rw [if_neg (by simp [hsource])]
      refine ⟨e :: first, marked, rfl, ?_, hmarked⟩
      rw [instructionLines_cons hkind]
      exact .cons hwrites hfirst

theorem sources_of_yields_all {es : List Entry} {founds : List (List Item)} (h : List.Forall₂ Yields es founds) :
    List.Forall₂ Codes (sourceInstructions es) (sourcesOf founds.flatten) := by
  obtain ⟨first, marked, hsplit, hfirst, hmarked⟩ := codes_of_yields_all h
  rw [sourceInstructions, hsplit, List.map_cons, sourcesOf]
  generalize codeOf founds.flatten = parts at hfirst hmarked ⊢
  obtain ⟨code, sources⟩ := parts
  dsimp only at hfirst hmarked
  generalize instructionLines first = lines at hfirst ⊢
  generalize marked.map instructionLines = others at hmarked ⊢
  cases hfirst with
  | nil =>
    cases hmarked with
    | nil => exact .cons .nil .nil
    | cons hcode hrest => exact .cons hcode hrest
  | cons hwrites hcode => exact .cons (.cons hwrites hcode) hmarked

/-! ## Texts -/

theorem items_entries_iff {text : String} {found : List Item} :
    items .code 1 (Text.lines text) = .ok found ↔
      ∃ founds, List.Forall₂ Yields (entries text) founds ∧ found = founds.flatten :=
  @items_eq_ok_iff [] 1 (Text.lines text) found

theorem exists_yields_of_assemble {text : String} {s : Script} (h : assemble text = .ok s) :
    ∃ founds, List.Forall₂ Yields (entries text) founds ∧
      s.sources = sourcesOf founds.flatten ∧ s.constants = constantsOf founds.flatten := by
  rw [assemble] at h
  cases hfound : items .code 1 (Text.lines text) with
  | error fault =>
    rw [hfound] at h
    cases h
  | ok found =>
    rw [hfound] at h
    obtain ⟨founds, hyields, rfl⟩ := items_entries_iff.mp hfound
    exact ⟨founds, hyields, Script.parts_of_ofParts h⟩

theorem exists_assemble_of_yields {text : String} {founds : List (List Item)}
    (hyields : List.Forall₂ Yields (entries text) founds)
    (hfew : (constantWords (entries text)).length ≤ maxConstants) : ∃ s, assemble text = .ok s := by
  rw [← length_constants_of_yields_all hyields] at hfew
  rw [assemble, items_entries_iff.mpr ⟨founds, hyields, rfl⟩]
  rcases ofParts_items founds.flatten with ⟨-, s, hs⟩ | ⟨hmany, -⟩
  · exact ⟨s, hs⟩
  · exact absurd hfew (Nat.not_le.mpr hmany)

/-- **The grammar of assembly.** A text is a script exactly when all its lines fit and hold no more constants than an
operand can name. The constants of the script are those of the text, and each of its sources is the code of the
instructions that the text puts there. -/
theorem assemble_iff_grammatical (text : String) :
    ((∃ s, assemble text = .ok s) ↔ Grammatical text) ∧
      ∀ s, assemble text = .ok s →
        s.constants.map some = (constantWords (entries text)).map constant? ∧
          List.Forall₂ Codes (sourceInstructions (entries text)) s.sources := by
  refine ⟨⟨?_, ?_⟩, ?_⟩
  · rintro ⟨s, hs⟩
    obtain ⟨founds, hyields, -, hconstants⟩ := exists_yields_of_assemble hs
    refine ⟨fits_of_yields_all hyields, ?_⟩
    rw [← length_constants_of_yields_all hyields, ← hconstants]
    exact s.length_constants_le
  · rintro ⟨hfits, hfew⟩
    obtain ⟨founds, hyields⟩ := exists_yields_all hfits
    exact exists_assemble_of_yields hyields hfew
  · intro s hs
    obtain ⟨founds, hyields, hsources, hconstants⟩ := exists_yields_of_assemble hs
    rw [hsources, hconstants]
    exact ⟨constants_of_yields_all hyields, sources_of_yields_all hyields⟩

/-- Instructions before any directive, constants on the line of a directive and below it, and a source without code. -/
def interleavedText : String := "ISZERO\n.constants 1, 0x2\n3 # three\n\n.source\nADD 2\n.constants\r\n4\n.source"

def interleavedScript : Script where
  sources := [[Instruction.isZero.opcode, 0], [(Instruction.aggregate .add).opcode, 2], []]
  constants := [.ofUInt8 1, .ofUInt8 2, .ofUInt8 3, .ofUInt8 4]
  sources_ne_nil := by decide
  length_even := by decide
  length_constants_le := by decide

theorem assemble_iff_grammatical_interleavedText :
    assemble interleavedText = .ok interleavedScript ∧ Grammatical interleavedText ∧
      interleavedScript.constants.map some = ["1", "0x2", "3", "4"].map constant? ∧
      List.Forall₂ Codes [[["ISZERO"]], [["ADD", "2"]], []] interleavedScript.sources := by
  have hassemble : assemble interleavedText = .ok interleavedScript := by rfl
  have hwords : constantWords (entries interleavedText) = ["1", "0x2", "3", "4"] := by decide
  have hlines : sourceInstructions (entries interleavedText) = [[["ISZERO"]], [["ADD", "2"]], []] := by decide
  obtain ⟨hiff, hparts⟩ := assemble_iff_grammatical interleavedText
  obtain ⟨hconstants, hsources⟩ := hparts interleavedScript hassemble
  rw [hwords] at hconstants
  rw [hlines] at hsources
  exact ⟨hassemble, hiff.mp ⟨_, hassemble⟩, hconstants, hsources⟩

end TokenSale.Assembly
