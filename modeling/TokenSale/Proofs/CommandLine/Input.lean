import TokenSale.Main
import TokenSale.Proofs.CommandLine.Session
import TokenSale.Proofs.Script.Canonical

/-!
# What a run does to its input

Where no place for the binary form is given, it is written beside the input, to a name that keeps what stands before
the last dot. So a text whose name has the extension of binary forms already is written over: `Overwrites`. Every other
run keeps its input: `read_input_iff`.
-/

namespace TokenSale.CommandLine

open Files

/-! ## Flags that give no place -/

theorem Flag.eq_of_ofText?_eq_output {text : String} (h : Flag.ofText? text = some (.setting .output)) :
    text = "-o" ∨ text = "--output" := by
  unfold Flag.ofText? at h
  split at h
  case h_5 => exact .inl rfl
  case h_6 => exact .inr rfl
  all_goals cases h

namespace Options

theorem turnOn_output (o : Options) (s : Switch) : (o.turnOn s).input = o.input ∧ (o.turnOn s).output = o.output := by
  cases s with
  | disassemble => exact ⟨rfl, rfl⟩
  | evaluate => exact ⟨rfl, rfl⟩

theorem assign_output {o next : Options} {value : String} {s : Setting} (hs : s ≠ .output)
    (h : o.assign value s = .ok next) : next.input = o.input ∧ next.output = o.output := by
  cases s with
  | output => exact absurd rfl hs
  | account =>
    rw [assign] at h
    split at h
    · cases h
      exact ⟨rfl, rfl⟩
    · cases h
  | time =>
    rw [assign] at h
    cases hvalue : seconds value with
    | error cause => rw [hvalue] at h; cases h
    | ok time => rw [hvalue] at h; cases h; exact ⟨rfl, rfl⟩
  | units | supplyLimit | minted | supply =>
    rw [assign] at h
    cases hvalue : word value with
    | error cause => rw [hvalue] at h; cases h
    | ok w => rw [hvalue] at h; cases h; exact ⟨rfl, rfl⟩

theorem extend_output {o next : Options} {flags : List String} (ho : "-o" ∉ flags) (houtput : "--output" ∉ flags)
    (h : o.extend flags = .ok next) : next.input = o.input ∧ next.output = o.output := by
  fun_induction extend o flags with
  | case1 o =>
    cases h
    exact ⟨rfl, rfl⟩
  | case2 o text rest hflag => cases h
  | case3 o text rest s hflag ih =>
    obtain ⟨hinput, hplace⟩ := ih (List.not_mem_of_not_mem_cons ho) (List.not_mem_of_not_mem_cons houtput) h
    exact ⟨hinput.trans (o.turnOn_output s).1, hplace.trans (o.turnOn_output s).2⟩
  | case4 o text s hflag => cases h
  | case5 o text s hflag value rest cause hassign => cases h
  | case6 o text s hflag value rest assigned hassign ih =>
    have hs : s ≠ .output := by
      rintro rfl
      rcases Flag.eq_of_ofText?_eq_output hflag with rfl | rfl
      · exact ho List.mem_cons_self
      · exact houtput List.mem_cons_self
    obtain ⟨hinput, hplace⟩ := ih (fun hmem => ho (List.mem_cons_of_mem _ (List.mem_cons_of_mem _ hmem)))
      (fun hmem => houtput (List.mem_cons_of_mem _ (List.mem_cons_of_mem _ hmem))) h
    exact ⟨hinput.trans (assign_output hs hassign).1, hplace.trans (assign_output hs hassign).2⟩

theorem parse_output {o : Options} {input : String} {flags : List String} (ho : "-o" ∉ flags)
    (houtput : "--output" ∉ flags) (h : parse input flags = .ok o) :
    o.input = input ∧ o.output = none ∧ o.target = (Path.ofText input).withExtension "bin" := by
  obtain ⟨hinput, hplace⟩ := extend_output ho houtput h
  change o.input = input at hinput
  change o.output = none at hplace
  exact ⟨hinput, hplace, by rw [target, hplace, hinput]⟩

end Options

/-! ## The files after a run -/

/-- The tree after a run with some arguments. -/
def filesAfter (program : String) (arguments : List String) (t : FileTree) : FileTree :=
  ((run FileTree.system program arguments).run t).2

section

variable {t after : FileTree} {program input : String} {flags : List String} {o : Options} {s : Script}

theorem filesAfter_of_leaves {arguments : List String}
    (h : Leaves (session FileTree.system program arguments) t after) : filesAfter program arguments t = after := by
  have htree := h ⟨"", []⟩
  unfold filesAfter run
  rw [StateT.run_bind]
  rcases hresult : result (session FileTree.system program arguments) ⟨"", []⟩ t with ⟨⟨_ | value, later⟩, tree⟩
  all_goals
    rw [hresult] at htree
    cases htree
    unfold result at hresult
    rw [hresult]
    rfl

theorem filesAfter_of_parse (hhelp : input ≠ "-h" ∧ input ≠ "--help") (h : Options.parse input flags = .ok o)
    (hperform : Leaves (perform FileTree.system o) t after) : filesAfter program (input :: flags) t = after := by
  refine filesAfter_of_leaves ?_
  rw [session, if_neg (not_or.mpr hhelp), h]
  exact hperform

/-- A run that only shows what the command line says about itself changes nothing, and a run with arguments that are
refused neither. -/
theorem filesAfter_of_not_parse (h : ¬ (input ≠ "-h" ∧ input ≠ "--help" ∧ ∃ o, Options.parse input flags = .ok o)) :
    filesAfter program (input :: flags) t = t := by
  refine filesAfter_of_leaves ?_
  rw [session]
  split
  · exact (gives_inform t _).leaves
  · next hhelp =>
    cases hparse : Options.parse input flags with
    | ok o => exact absurd ⟨(not_or.mp hhelp).1, (not_or.mp hhelp).2, o, hparse⟩ h
    | error e =>
      cases e with
      | unexpected argument =>
        exact ((gives_addRecords t _).bind_ends ((gives_inform t _).bind_ends (ends_throw t failure))).leaves
      | missingValue flag => exact (ends_fail t _).leaves
      | invalidValue flag cause => exact (ends_fail t _).leaves

/-! ## The input -/

/-- What makes a run write over its input: it is asked for nothing but the binary form, the input is the file of a
text, and its name has the extension of binary forms. -/
structure Overwrites (t : FileTree) (input : String) (flags : List String) (s : Script) : Prop where
  not_help : input ≠ "-h" ∧ input ≠ "--help"
  asks : ∃ o, Options.parse input flags = .ok o ∧ o.disassemble = false ∧ o.evaluate = false
  file : ∃ place bytes, t.locate (Path.ofText input) = .ok (place, .file bytes) ∧ Holds input bytes s .text
  extension : (Path.ofText input).HasExtension "bin"

theorem isExtension_bin : Path.IsExtension "bin" := by decide

theorem compiles_iff (ho : o.output = none) {form : Form} :
    o.compiles form = true ↔ form = .text ∧ o.disassemble = false ∧ o.evaluate = false := by
  rw [Options.compiles, ho]
  simp only [Option.isSome_none, Bool.false_or, Bool.and_eq_true, decide_eq_true_eq, Bool.not_eq_true', and_assoc]

/-- The binary form is never the text it was made from. -/
theorem Overwrites.read_ne (h : Overwrites t input flags s) : t.read (Path.ofText input) ≠ .ok s.toBytes := by
  obtain ⟨place, bytes, hlocate, hholds⟩ := h.file
  rw [FileTree.read_of_locate_file hlocate]
  rintro hsame
  cases hsame
  cases hholds with
  | text magic assembled =>
    rw [Script.hasMagic_toBytes] at magic
    cases magic

theorem Overwrites.read_filesAfter (ho : "-o" ∉ flags) (houtput : "--output" ∉ flags)
    (h : Overwrites t input flags s) :
    (filesAfter program (input :: flags) t).read (Path.ofText input) = .ok s.toBytes := by
  obtain ⟨o, hparse, hdisassemble, hevaluate⟩ := h.asks
  obtain ⟨place, bytes, hlocate, hholds⟩ := h.file
  obtain ⟨rfl, hplace, htarget⟩ := Options.parse_output ho houtput hparse
  obtain ⟨after, hwrite, hafter⟩ := FileTree.exists_write_beside s.toBytes isExtension_bin hlocate h.extension
  have hdirectory : DirectoryExists t o.target := by
    rw [htarget]
    intro parent hparent hempty
    exact FileTree.pathExists_parent_beside isExtension_bin hlocate nofun hparent hempty
  rw [← htarget] at hwrite
  have hperform : Leaves (perform FileTree.system o) t after := by
    refine leaves_perform_of_gives (gives_load (FileTree.read_of_locate_file hlocate) hholds) ?_
    rw [if_pos ((compiles_iff hplace).mpr ⟨rfl, hdisassemble, hevaluate⟩)]
    exact leaves_compile_of_write hdirectory hwrite
  rw [filesAfter_of_parse h.not_help hparse hperform]
  exact FileTree.read_of_locate_file hafter

/-- A file without the extension of binary forms is kept when the binary form is written beside it. -/
theorem exists_leaves_compile {bytes : List UInt8} (s : Script)
    (htarget : o.target = (Path.ofText o.input).withExtension "bin") (hread : t.read (Path.ofText o.input) = .ok bytes)
    (hother : ∀ place, t.locate (Path.ofText o.input) = .ok (place, .file bytes) →
      ¬ (Path.ofText o.input).HasExtension "bin") :
    ∃ after, Leaves (compile FileTree.system o s) t after ∧
      after.read (Path.ofText o.input) = t.read (Path.ofText o.input) := by
  by_cases hwritten : DirectoryExists t o.target ∧ ∃ after, t.write o.target s.toBytes = .ok after
  · obtain ⟨hdirectory, after, hwrite⟩ := hwritten
    refine ⟨after, leaves_compile_of_write hdirectory hwrite, FileTree.read_of_locate_eq ?_⟩
    rw [htarget] at hwrite
    obtain ⟨place, there, hlocate, rfl | rfl⟩ := FileTree.read_eq_ok hread
    · exact FileTree.locate_of_write_beside isExtension_bin hlocate nofun (.inr (hother place hlocate)) hwrite
    · exact FileTree.locate_of_write_beside isExtension_bin hlocate nofun (.inl rfl) hwrite
  · exact ⟨t, leaves_compile_of_not_written hwritten, rfl⟩

theorem read_filesAfter_of_not_overwrites (ho : "-o" ∉ flags) (houtput : "--output" ∉ flags)
    (h : ∀ s, ¬ Overwrites t input flags s) :
    (filesAfter program (input :: flags) t).read (Path.ofText input) = t.read (Path.ofText input) := by
  -- The cases are how far the run gets: past its arguments, past the load, to the write.
  by_cases hruns : input ≠ "-h" ∧ input ≠ "--help" ∧ ∃ o, Options.parse input flags = .ok o
  · obtain ⟨hshort, hlong, o, hparse⟩ := hruns
    obtain ⟨rfl, hplace, htarget⟩ := Options.parse_output ho houtput hparse
    obtain ⟨after, hperform, hkept⟩ : ∃ after, Leaves (perform FileTree.system o) t after ∧
        after.read (Path.ofText o.input) = t.read (Path.ofText o.input) := by
      by_cases hloads : ∃ bytes s form, t.read (Path.ofText o.input) = .ok bytes ∧ Holds o.input bytes s form
      · obtain ⟨bytes, s, form, hread, hholds⟩ := hloads
        have hload := gives_load hread hholds
        by_cases hcompiles : o.compiles form = true
        · obtain ⟨rfl, hdisassemble, hevaluate⟩ := (compiles_iff hplace).mp hcompiles
          obtain ⟨after, hcompile, hkept⟩ := exists_leaves_compile s htarget hread fun place hlocate hextension =>
            h s ⟨⟨hshort, hlong⟩, ⟨o, hparse, hdisassemble, hevaluate⟩, ⟨place, bytes, hlocate, hholds⟩, hextension⟩
          refine ⟨after, leaves_perform_of_gives hload ?_, hkept⟩
          rw [if_pos hcompiles]
          exact hcompile
        · refine ⟨t, leaves_perform_of_gives hload ?_, rfl⟩
          rw [if_neg hcompiles]
          exact (gives_pure t ()).leaves
      · refine ⟨t, leaves_perform_of_ends (ends_load fun bytes s form hread hholds => ?_), rfl⟩
        exact hloads ⟨bytes, s, form, hread, hholds⟩
    rw [filesAfter_of_parse ⟨hshort, hlong⟩ hparse hperform, hkept]
  · rw [filesAfter_of_not_parse hruns]

/-- **A run without a place for the binary form keeps its input, unless this is a text with the extension of binary
forms that is to be compiled.** Then, and only then, the input is lost: the binary form takes its place. -/
theorem read_input_iff (t : FileTree) (program input : String) {flags : List String} (ho : "-o" ∉ flags)
    (houtput : "--output" ∉ flags) :
    ((filesAfter program (input :: flags) t).read (Path.ofText input) = t.read (Path.ofText input) ↔
        ∀ s, ¬ Overwrites t input flags s) ∧
      ∀ s, Overwrites t input flags s →
        (filesAfter program (input :: flags) t).read (Path.ofText input) = .ok s.toBytes := by
  refine ⟨⟨?_, read_filesAfter_of_not_overwrites ho houtput⟩, fun s => Overwrites.read_filesAfter ho houtput⟩
  intro hkept s hoverwrites
  apply hoverwrites.read_ne
  rw [← hkept]
  exact hoverwrites.read_filesAfter ho houtput

end

/-! ## A text with the extension of binary forms -/

def encoding (text : String) : List UInt8 := text.toList.flatMap String.utf8EncodeChar

theorem textOfBytes_encoding (text : String) : Assembly.textOfBytes (encoding text) = .ok text := by
  have hbytes : (encoding text).toByteArray = text.toByteArray := String.utf8Encode_toList
  have htext : String.fromUTF8? text.toByteArray = some text := dif_pos text.isValidUTF8
  rw [Assembly.textOfBytes, hbytes, htext]

def savedText : String := ".constants 1\n.source\nCONSTANT 0\n"

/-- The script that the text describes. -/
def savedScript : Script := ⟨⟨[[0, 0]], [1]⟩, nofun, by decide, by decide⟩

/-- A tree with the text, and nothing else, in its working directory. -/
def savedTree : FileTree where
  nodes := Table.set ∅ ["sale.bin".toList] (.file (encoding savedText))
  here := []
  closed := FileTree.empty.closed.set rfl nofun
  here_directory := rfl

/-- The text is kept by a run that is to show it. -/
theorem read_input_iff_savedTree :
    "-o" ∉ ["-d"] ∧ "--output" ∉ ["-d"] ∧
      (filesAfter Main.programName ["sale.bin", "-d"] savedTree).read (Path.ofText "sale.bin") =
        savedTree.read (Path.ofText "sale.bin") := by
  refine ⟨by decide, by decide, ?_⟩
  apply (read_input_iff savedTree Main.programName "sale.bin" (by decide) (by decide)).1.mpr
  intro s hoverwrites
  obtain ⟨o, hparse, hdisassemble, -⟩ := hoverwrites.asks
  cases hparse
  cases hdisassemble

theorem overwrites_savedTree : Overwrites savedTree "sale.bin" [] savedScript where
  not_help := by decide
  asks := ⟨_, rfl, rfl, rfl⟩
  file := by
    refine ⟨["sale.bin".toList], encoding savedText, rfl, .text rfl ?_⟩
    have hcontent : (Except.ok (encoding savedText)).bind Assembly.textOfBytes = .ok savedText :=
      textOfBytes_encoding savedText
    rw [Assembly.assembleContent, hcontent]
    rfl
  extension := ⟨"sale".toList, by decide, rfl⟩

/-- The text is lost in a run that is asked for nothing. -/
theorem input_lost_savedTree :
    "-o" ∉ ([] : List String) ∧ "--output" ∉ ([] : List String) ∧
      savedTree.read (Path.ofText "sale.bin") = .ok (encoding savedText) ∧
      (filesAfter Main.programName ["sale.bin"] savedTree).read (Path.ofText "sale.bin") = .ok savedScript.toBytes ∧
      savedScript.toBytes ≠ encoding savedText := by
  refine ⟨by decide, by decide, rfl, ?_, by decide⟩
  exact overwrites_savedTree.read_filesAfter (by decide) (by decide)

end TokenSale.CommandLine
