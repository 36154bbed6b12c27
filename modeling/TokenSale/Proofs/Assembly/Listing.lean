import TokenSale.Proofs.Assembly.Items
import TokenSale.Proofs.Assembly.Line

/-!
# Listings read back

Written lines that read back do so wherever they stand in a text (`Reads`), so what a listing reads back as is put
together from what its lines do. A listing exists when every opcode is in the table, and the script read back from it has
the same constants and the same code, with the operand bytes that assembly keeps: `assemble_disassemble`.
-/

namespace TokenSale

/-! ## Code as instructions -/

/-- The bytes of instructions and their operands. -/
def bytesOf (code : List (Instruction × UInt8)) : List UInt8 := code.flatMap fun p => [p.1.opcode, p.2]

/-- The opcodes in code. -/
def opcodesOf : List UInt8 → List UInt8
  | opcode :: _ :: rest => opcode :: opcodesOf rest
  | _ => []

/-- Code with the operand bytes that assembly keeps. -/
def keptCode : List UInt8 → List UInt8
  | opcode :: operand :: rest =>
    match Instruction.ofOpcode? opcode with
    | some i => opcode :: i.kept operand :: keptCode rest
    | none => opcode :: operand :: keptCode rest
  | code => code

theorem bytesOf_cons (i : Instruction) (operand : UInt8) (rest : List (Instruction × UInt8)) :
    bytesOf ((i, operand) :: rest) = i.opcode :: operand :: bytesOf rest := rfl

/-- Whole instructions whose opcodes are in the table. -/
theorem exists_bytesOf {code : List UInt8} (heven : code.length % 2 = 0)
    (hknown : ∀ opcode ∈ opcodesOf code, (Instruction.ofOpcode? opcode).isSome) :
    ∃ instructions, bytesOf instructions = code := by
  induction code using opcodesOf.induct with
  | case1 opcode operand rest ih =>
    obtain ⟨i, hi⟩ := Option.isSome_iff_exists.mp (hknown opcode List.mem_cons_self)
    have hrest : rest.length % 2 = 0 := by
      rw [List.length_cons, List.length_cons] at heven
      omega
    obtain ⟨more, hmore⟩ := ih hrest fun b hb => hknown b (List.mem_cons_of_mem opcode hb)
    refine ⟨(i, operand) :: more, ?_⟩
    rw [bytesOf_cons, hmore, Instruction.opcode_of_ofOpcode? hi]
  | case2 code hcode =>
    rcases code with _ | ⟨opcode, _ | ⟨operand, rest⟩⟩
    · exact ⟨[], rfl⟩
    · cases heven
    · exact (hcode opcode operand rest rfl).elim

theorem keptCode_cons {opcode : UInt8} {i : Instruction} (h : Instruction.ofOpcode? opcode = some i)
    (operand : UInt8) (rest : List UInt8) :
    keptCode (opcode :: operand :: rest) = opcode :: i.kept operand :: keptCode rest := by
  rw [keptCode, h]

theorem keptCode_cons_of_none {opcode : UInt8} (h : Instruction.ofOpcode? opcode = none)
    (operand : UInt8) (rest : List UInt8) :
    keptCode (opcode :: operand :: rest) = opcode :: operand :: keptCode rest := by
  rw [keptCode, h]

theorem keptCode_bytesOf (code : List (Instruction × UInt8)) :
    keptCode (bytesOf code) = bytesOf (code.map fun p => (p.1, p.1.kept p.2)) := by
  induction code with
  | nil => rfl
  | cons p rest ih =>
    obtain ⟨i, operand⟩ := p
    rw [bytesOf_cons, keptCode_cons i.ofOpcode?_opcode, List.map_cons, bytesOf_cons, ← ih]

theorem length_keptCode (code : List UInt8) : (keptCode code).length = code.length := by
  fun_induction keptCode code with
  | case1 opcode operand rest i hi ih => rw [List.length_cons, List.length_cons, ih, List.length_cons, List.length_cons]
  | case2 opcode operand rest hi ih => rw [List.length_cons, List.length_cons, ih, List.length_cons, List.length_cons]
  | case3 code hcode => rfl

namespace Script

/-- Every opcode of every source is in the table. -/
def Known (s : Script) : Prop :=
  ∀ code ∈ s.sources, ∀ opcode ∈ opcodesOf code, (Instruction.ofOpcode? opcode).isSome

instance (s : Script) : Decidable s.Known :=
  decidable_of_iff
    ((s.sources.all fun code => (opcodesOf code).all fun b => (Instruction.ofOpcode? b).isSome) = true) (by
      simp only [List.all_eq_true, Known])

/-- The script with the operand bytes that assembly keeps. -/
def kept (s : Script) : Script where
  sources := s.sources.map keptCode
  constants := s.constants
  sources_ne_nil := by
    intro h
    exact s.sources_ne_nil (List.map_eq_nil_iff.mp h)
  length_even := by
    intro code hcode
    obtain ⟨original, horiginal, rfl⟩ := List.mem_map.mp hcode
    rw [length_keptCode]
    exact s.length_even original horiginal
  length_constants_le := s.length_constants_le

theorem Known.exists_bytesOf {s : Script} (hs : s.Known) :
    ∃ sources : List (List (Instruction × UInt8)), sources.map bytesOf = s.sources := by
  have hall : ∀ code ∈ s.sources, ∃ instructions, bytesOf instructions = code := by
    intro code hcode
    exact TokenSale.exists_bytesOf (s.length_even code hcode) (hs code hcode)
  generalize s.sources = sources at hall
  induction sources with
  | nil => exact ⟨[], rfl⟩
  | cons code rest ih =>
    obtain ⟨here, hhere⟩ := hall code List.mem_cons_self
    obtain ⟨more, hmore⟩ := ih fun c hc => hall c (List.mem_cons_of_mem code hc)
    exact ⟨here :: more, by rw [List.map_cons, hhere, hmore]⟩

end Script

namespace Assembly

/-! ## Lines that read back -/

/-- Lines that say `found`, wherever they stand, and are followed by the section `next`. -/
structure Reads (current : Section) (written : List String) (next : Section) (found : List Item) : Prop where
  unbroken : ∀ l ∈ written, Text.Unbroken l.toList
  items : ∀ number rest, items current number (written.map String.toList ++ rest) =
    (items next (number + written.length) rest).map (found ++ ·)

theorem reads_nil (current : Section) : Reads current [] current [] where
  unbroken := by
    intro l hl
    cases hl
  items := by
    intro number rest
    show Assembly.items current number rest = (Assembly.items current number rest).map id
    cases Assembly.items current number rest <;> rfl

theorem Reads.append {current middle next : Section} {first second : List String}
    {found found' : List Item} (hfirst : Reads current first middle found)
    (hsecond : Reads middle second next found') :
    Reads current (first ++ second) next (found ++ found') where
  unbroken := by
    intro l hl
    rcases List.mem_append.mp hl with h | h
    · exact hfirst.unbroken l h
    · exact hsecond.unbroken l h
  items := by
    intro number rest
    rw [List.map_append, List.append_assoc, hfirst.items, hsecond.items, List.length_append, Nat.add_assoc]
    cases Assembly.items next (number + (first.length + second.length)) rest with
    | error fault => rfl
    | ok more => exact congrArg Except.ok (List.append_assoc found found' more).symm

theorem reads_line {current next : Section} {l : String} {found : List Item}
    (hunbroken : Text.Unbroken l.toList) (hline : line current (tokens l.toList) = .ok (next, found)) :
    Reads current [l] next found where
  unbroken := by
    intro l' hl'
    rw [List.mem_singleton.mp hl']
    exact hunbroken
  items := by
    intro number rest
    exact items_cons_of_ok hline number rest

theorem Reads.assemble {written : List String} {next : Section} {found : List Item}
    (h : Reads .code written next found) :
    assemble (String.join (written.map (· ++ "\n"))) =
      Script.ofParts (sourcesOf found) (constantsOf found) := by
  have hitems := h.items 1 []
  rw [List.append_nil] at hitems
  rw [Assembly.assemble, Text.lines_join h.unbroken, hitems]
  show Script.ofParts (sourcesOf (found ++ [])) (constantsOf (found ++ [])) = _
  rw [List.append_nil]

/-! ## The lines of a listing -/

theorem reads_constantLines (index : Nat) (constants : List Word) :
    Reads .constants (constantLines index constants) .constants (constants.map .constant) := by
  induction constants generalizing index with
  | nil => exact reads_nil _
  | cons w rest ih =>
    have hline := reads_line (unbroken_constantLine w index) (line_constantLine w index)
    exact hline.append (ih (index + 1))

/-- What the code of a source says. -/
def itemsOf (code : List (Instruction × UInt8)) : List Item :=
  code.map fun p => .instruction p.1 (p.1.kept p.2)

theorem reads_codeLines (offset : Nat) (code : List (Instruction × UInt8)) :
    ∃ written, codeLines offset (bytesOf code) = .ok written ∧ Reads .code written .code (itemsOf code) := by
  induction code generalizing offset with
  | nil => exact ⟨[], rfl, reads_nil _⟩
  | cons p rest ih =>
    obtain ⟨i, operand⟩ := p
    obtain ⟨written, hwritten, hreads⟩ := ih (offset + Instruction.width)
    refine ⟨instructionLine i operand :: written, ?_, ?_⟩
    · rw [bytesOf_cons, codeLines, i.ofOpcode?_opcode, hwritten]
      rfl
    · exact (reads_line (unbroken_instructionLine i operand) (line_instructionLine i operand)).append hreads

-- A source starts in whatever section its first line is read in, and leaves the section of code.
theorem reads_sourceLines (index : Nat) (sources : List (List (Instruction × UInt8))) (current : Section) :
    ∃ written next, sourceLines index (sources.map bytesOf) = .ok written ∧
      Reads current written next (sources.flatMap fun code => .source :: itemsOf code) := by
  induction sources generalizing index current with
  | nil => exact ⟨[], current, rfl, reads_nil _⟩
  | cons code rest ih =>
    obtain ⟨here, hhere, hcode⟩ := reads_codeLines 0 code
    obtain ⟨more, next, hmore, hrest⟩ := ih (index + 1) .code
    refine ⟨s!".source # {index}" :: here ++ more, next, ?_, ?_⟩
    · rw [List.map_cons, sourceLines, hhere, hmore]
      rfl
    · have hline := reads_line (unbroken_sourceLine index) (line_source current index)
      exact (hline.append hcode).append hrest

theorem reads_constantSection (constants : List Word) :
    ∃ next, Reads .code (if constants = [] then [] else ".constants" :: constantLines 0 constants) next
      (constants.map .constant) := by
  split
  · next h =>
    subst h
    exact ⟨.code, reads_nil _⟩
  · have hunbroken : Text.Unbroken ".constants".toList := by decide
    exact ⟨.constants, (reads_line hunbroken (line_constants .code)).append (reads_constantLines 0 constants)⟩

/-! ## What the items make up -/

theorem constantsOf_listing (constants : List Word) (sources : List (List (Instruction × UInt8))) :
    constantsOf (constants.map .constant ++ sources.flatMap fun code => .source :: itemsOf code) =
      constants := by
  have hcode : constantsOf (sources.flatMap fun code => .source :: itemsOf code) = [] := by
    rw [constantsOf, List.filterMap_eq_nil_iff]
    intro item hitem
    obtain ⟨code, -, hmem⟩ := List.mem_flatMap.mp hitem
    rcases List.mem_cons.mp hmem with rfl | h
    · rfl
    · obtain ⟨p, -, rfl⟩ := List.mem_map.mp h
      rfl
  rw [constantsOf_append, constantsOf_constants, hcode, List.append_nil]

theorem codeOf_itemsOf (code : List (Instruction × UInt8)) (more : List Item) :
    codeOf (itemsOf code ++ more) = (keptCode (bytesOf code) ++ (codeOf more).1, (codeOf more).2) := by
  rw [keptCode_bytesOf]
  induction code with
  | nil => rfl
  | cons p rest ih =>
    show codeOf (.instruction p.1 (p.1.kept p.2) :: (itemsOf rest ++ more)) = _
    rw [codeOf, ih]
    rfl

theorem codeOf_sources (sources : List (List (Instruction × UInt8))) :
    codeOf (sources.flatMap fun code => .source :: itemsOf code) =
      ([], (sources.map bytesOf).map keptCode) := by
  induction sources with
  | nil => rfl
  | cons code rest ih =>
    rw [List.flatMap_cons, List.cons_append, codeOf, codeOf_itemsOf, ih, List.append_nil]
    rfl

theorem sourcesOf_listing (constants : List Word) {sources : List (List (Instruction × UInt8))}
    (h : sources ≠ []) :
    sourcesOf (constants.map .constant ++ sources.flatMap fun code => .source :: itemsOf code) =
      (sources.map bytesOf).map keptCode := by
  rw [sourcesOf, codeOf_constants, codeOf_sources]
  cases sources with
  | nil => exact absurd rfl h
  | cons code rest => rfl

/-! ## Whole scripts -/

/-- The listing of a script whose opcodes are all in the table reads back as what assembly keeps of the script. -/
theorem assemble_disassemble {s : Script} (hs : s.Known) :
    ∃ text, disassemble s = .ok text ∧ assemble text = .ok s.kept := by
  obtain ⟨sources, hsources⟩ := hs.exists_bytesOf
  have hne : sources ≠ [] := by
    rintro rfl
    exact s.sources_ne_nil hsources.symm
  obtain ⟨middle, hconstants⟩ := reads_constantSection s.constants
  obtain ⟨below, next, hbelow, hcode⟩ := reads_sourceLines 0 sources middle
  have hreads := hconstants.append hcode
  refine ⟨_, ?_, hreads.assemble.trans ?_⟩
  · rw [disassemble, listing, ← hsources, hbelow]
    rfl
  · rw [constantsOf_listing, sourcesOf_listing s.constants hne, hsources]
    exact s.kept.ofParts_parts

theorem known_of_codeLines {offset : Nat} {code : List UInt8} {written : List String}
    (h : codeLines offset code = .ok written) :
    ∀ opcode ∈ opcodesOf code, (Instruction.ofOpcode? opcode).isSome := by
  induction code using opcodesOf.induct generalizing offset written with
  | case1 opcode operand rest ih =>
    rw [codeLines] at h
    cases hi : Instruction.ofOpcode? opcode with
    | none =>
      rw [hi] at h
      cases h
    | some i =>
      rw [hi] at h
      cases hrest : codeLines (offset + Instruction.width) rest with
      | error fault =>
        rw [hrest] at h
        cases h
      | ok more =>
        intro b hb
        rcases List.mem_cons.mp hb with rfl | hb
        · rw [hi]
          rfl
        · exact ih hrest b hb
  | case2 code hcode =>
    intro b hb
    rw [opcodesOf] at hb
    · cases hb
    · exact hcode

theorem known_of_sourceLines {index : Nat} {sources : List (List UInt8)} {written : List String}
    (h : sourceLines index sources = .ok written) :
    ∀ code ∈ sources, ∀ opcode ∈ opcodesOf code, (Instruction.ofOpcode? opcode).isSome := by
  induction sources generalizing index written with
  | nil =>
    intro code hcode
    cases hcode
  | cons code rest ih =>
    rw [sourceLines] at h
    cases hhere : codeLines 0 code with
    | error fault =>
      rw [hhere] at h
      cases h
    | ok here =>
      cases hmore : sourceLines (index + 1) rest with
      | error fault =>
        rw [hhere, hmore] at h
        cases h
      | ok more =>
        intro c hc
        rcases List.mem_cons.mp hc with rfl | hc
        · exact known_of_codeLines hhere
        · exact ih hmore c hc

theorem known_of_disassemble {s : Script} {text : String} (h : disassemble s = .ok text) : s.Known := by
  cases hlines : sourceLines 0 s.sources with
  | error fault =>
    rw [disassemble, listing, hlines] at h
    cases h
  | ok below => exact known_of_sourceLines hlines

end Assembly

end TokenSale
