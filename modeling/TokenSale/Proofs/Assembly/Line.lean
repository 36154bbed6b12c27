import TokenSale.Assembly.Line
import TokenSale.Assembly.Listing
import TokenSale.Proofs.Assembly.Token
import TokenSale.Theory.Numerals

/-!
# Written lines read back

Mnemonics, operands and constants are words, so a written line has the tokens it was written from. What a line says is
read back from it, except the operand byte of an instruction that takes no operand: it is not written, and zero is read
for it (`Instruction.kept`).
-/

namespace TokenSale

open Assembly

/-! ## Numbers -/

theorem isSeparator_of_isDigit {c : Char} (h : c.isDigit = true) : isSeparator c = false := by
  have hrange := Char.isDigit_iff_toNat.mp h
  have hlow : 48 ≤ c.toNat := hrange.1
  have hhigh : c.toNat ≤ 57 := hrange.2
  have hcomma : c ≠ ',' := by
    rintro rfl
    cases h
  have hblank : Text.isBlank c = false := by
    rw [Text.isBlank, List.any_eq_false]
    have hranges : ∀ r ∈ Text.blankRanges, r.2 < 48 ∨ 57 < r.1 := by decide
    intro r hr
    have hr' := hranges r hr
    simp only [Bool.and_eq_true, decide_eq_true_eq]
    omega
  rw [isSeparator, hblank, decide_eq_false hcomma]
  rfl

theorem Decimal.isWord_digits (n : Nat) : IsWord (digits n) where
  ne_nil := digits_ne_nil n
  not_separator := by
    intro c hc
    exact isSeparator_of_isDigit (isDigit_of_mem_digits hc)
  not_comment := by
    rintro c hc rfl
    cases isDigit_of_mem_digits hc

theorem Word.toList_toString (w : Word) : (toString w).toList = Decimal.digits w.toNat :=
  Decimal.toList_toString w.toNat

/-- A numeral is not introduced as a hexadecimal one. -/
theorem Assembly.constant?_toString (w : Word) : constant? (toString w) = some w := by
  rw [constant?, w.toList_toString]
  split
  · next run heq =>
    have hx : 'x' ∈ Decimal.digits w.toNat := by
      rw [heq]
      exact List.mem_cons_of_mem _ List.mem_cons_self
    cases Decimal.isDigit_of_mem_digits hx
  · next run heq =>
    have hx : 'X' ∈ Decimal.digits w.toNat := by
      rw [heq]
      exact List.mem_cons_of_mem _ List.mem_cons_self
    cases Decimal.isDigit_of_mem_digits hx
  · exact w.ofDecimal?_digits

/-! ## Operands -/

/-- A number is no name of anything whose names are not made up of digits alone. -/
theorem find?_name_digits {α : Type} {all : List α} {name : α → String}
    (h : ∀ a ∈ all, (name a).toList.all Char.isDigit = false) (n : Nat) :
    all.find? (name · == toString n) = none := by
  rw [List.find?_eq_none]
  intro a ha heq
  have hdigits : (Decimal.digits n).all Char.isDigit = true := by
    rw [List.all_eq_true]
    intro c
    exact Decimal.isDigit_of_mem_digits
  rw [← Decimal.toList_toString, ← eq_of_beq heq, h a ha] at hdigits
  cases hdigits

namespace Slot

theorem isWord_name (s : Slot) : IsWord s.name.toList := by
  cases s <;> decide

theorem ofName?_digits (n : Nat) : ofName? (toString n) = none :=
  find?_name_digits (by decide) n

end Slot

namespace Comparator

theorem isWord_name (c : Comparator) : IsWord c.name.toList := by
  cases c <;> decide

theorem ofName?_digits (n : Nat) : ofName? (toString n) = none :=
  find?_name_digits (by decide) n

end Comparator

namespace OperandKind

theorem named?_digits (k : OperandKind) (n : Nat) : k.named? (toString n) = none := by
  cases k with
  | slot => rw [named?, Slot.ofName?_digits, Option.map_none]
  | comparator => rw [named?, Comparator.ofName?_digits, Option.map_none]
  | _ => rfl

theorem named?_of_name? {k : OperandKind} {operand : UInt8} {name : String}
    (h : k.name? operand = some name) : k.named? name = some operand := by
  cases k with
  | slot =>
    obtain ⟨s, hs, rfl⟩ := Option.map_eq_some_iff.mp h
    rw [named?, Slot.ofName?_name, Option.map_some, Slot.code_of_ofCode? hs]
  | comparator =>
    obtain ⟨c, hc, rfl⟩ := Option.map_eq_some_iff.mp h
    rw [named?, Comparator.ofName?_name, Option.map_some, Comparator.code_of_ofCode? hc]
  | _ => cases h

theorem isWord_of_name? {k : OperandKind} {operand : UInt8} {name : String}
    (h : k.name? operand = some name) : IsWord name.toList := by
  cases k with
  | slot =>
    obtain ⟨s, -, rfl⟩ := Option.map_eq_some_iff.mp h
    exact s.isWord_name
  | comparator =>
    obtain ⟨c, -, rfl⟩ := Option.map_eq_some_iff.mp h
    exact c.isWord_name
  | _ => cases h

theorem isWord_render (k : OperandKind) (operand : UInt8) : IsWord (k.render operand).toList := by
  rw [render]
  cases hname : k.name? operand with
  | some name => exact isWord_of_name? hname
  | none =>
    rw [Option.getD_none, Decimal.toList_toString]
    exact Decimal.isWord_digits _

/-- Every operand byte reads back, whether it has a name or not. -/
theorem parse?_render (k : OperandKind) (operand : UInt8) : k.parse? (k.render operand) = some operand := by
  rw [render, parse?]
  cases hname : k.name? operand with
  | some name => rw [Option.getD_some, named?_of_name? hname, Option.some_or]
  | none =>
    rw [Option.getD_none, named?_digits, Option.none_or, Decimal.toList_toString,
      Decimal.natural?_digits operand.toNat_lt, Option.map_some, UInt8.ofNat_toNat]

end OperandKind

/-! ## Instructions -/

namespace Instruction

theorem isWord_mnemonic (i : Instruction) : IsWord i.mnemonic.toList := by
  have hword : ∀ j ∈ all, IsWord j.mnemonic.toList := by
    decide
  exact hword i (mem_all i)

theorem isDirective_mnemonic (i : Instruction) (column : Nat) :
    Token.isDirective ⟨i.mnemonic, column⟩ = false := by
  have hdot : ∀ j ∈ all, j.mnemonic.toList.head? ≠ some '.' := by
    decide
  exact decide_eq_false (hdot i (mem_all i))

/-- The operand byte that assembly keeps. -/
def kept (i : Instruction) (operand : UInt8) : UInt8 := if i.operandKind.isExplicit then operand else 0

end Instruction

namespace Assembly

theorem toList_instructionLine {i : Instruction} (h : i.operandKind.isExplicit = true) (operand : UInt8) :
    (instructionLine i operand).toList =
      i.mnemonic.toList ++ ' ' :: (i.operandKind.render operand).toList := by
  rw [instructionLine, if_pos h]
  show (i.mnemonic ++ " " ++ i.operandKind.render operand).toList = _
  rw [String.toList_append, String.toList_append, List.append_assoc]
  rfl

theorem instructionLine_of_unused {i : Instruction} (h : i.operandKind.isExplicit = false)
    (operand : UInt8) : instructionLine i operand = i.mnemonic := by
  rw [instructionLine, h]
  rfl

theorem unbroken_instructionLine (i : Instruction) (operand : UInt8) :
    Text.Unbroken (instructionLine i operand).toList := by
  have hmnemonic := i.isWord_mnemonic.unbroken
  cases h : i.operandKind.isExplicit with
  | true =>
    have hblank : Text.Unbroken [' '] := by decide
    rw [toList_instructionLine h]
    exact hmnemonic.append (hblank.append (i.operandKind.isWord_render operand).unbroken)
  | false =>
    rw [instructionLine_of_unused h]
    exact hmnemonic

/-- An instruction reads back with the operand byte that is kept of it. -/
theorem line_instructionLine (i : Instruction) (operand : UInt8) :
    line .code (tokens (instructionLine i operand).toList) =
      .ok (.code, [.instruction i (i.kept operand)]) := by
  cases h : i.operandKind.isExplicit with
  | true =>
    rw [toList_instructionLine h, tokens_words i.isWord_mnemonic (i.operandKind.isWord_render operand),
      String.ofList_toList, String.ofList_toList, line, i.isDirective_mnemonic, instruction]
    simp only [Instruction.ofMnemonic?_mnemonic, h, OperandKind.parse?_render, Instruction.kept]
    rfl
  | false =>
    rw [instructionLine_of_unused h, tokens_word i.isWord_mnemonic, String.ofList_toList, line,
      i.isDirective_mnemonic, instruction]
    simp only [Instruction.ofMnemonic?_mnemonic, h, Instruction.kept]
    rfl

/-! ## Constants -/

theorem toList_constantColumn (w : Word) :
    ∃ n, (constantColumn w).toList = Decimal.digits w.toNat ++ List.replicate n ' ' := by
  rw [constantColumn]
  split
  · refine ⟨0, ?_⟩
    rw [w.toList_toString, List.replicate_zero, List.append_nil]
  · refine ⟨24 - (toString w).length, ?_⟩
    rw [padRight, String.toList_ofList, w.toList_toString]

/-- The numeral, blanks and a comment. -/
theorem toList_constantLine (w : Word) (index : Nat) :
    ∃ blanks : List Char, (∀ c ∈ blanks, c = ' ') ∧
      s!"{constantColumn w} # {index}".toList =
        Decimal.digits w.toNat ++ blanks ++ '#' :: ' ' :: Decimal.digits index := by
  obtain ⟨n, hcolumn⟩ := toList_constantColumn w
  refine ⟨List.replicate n ' ' ++ [' '], ?_, ?_⟩
  · intro c hc
    rcases List.mem_append.mp hc with h | h
    · exact List.eq_of_mem_replicate h
    · exact List.mem_singleton.mp h
  · show (constantColumn w ++ " # " ++ toString index).toList = _
    rw [String.toList_append, String.toList_append, hcolumn, Decimal.toList_toString]
    simp only [List.append_assoc]
    rfl

theorem unbroken_constantLine (w : Word) (index : Nat) :
    Text.Unbroken s!"{constantColumn w} # {index}".toList := by
  obtain ⟨blanks, hblanks, hline⟩ := toList_constantLine w index
  have hmiddle : Text.Unbroken blanks := by
    intro c hc
    rw [hblanks c hc]
    decide
  have hcomment : Text.Unbroken ['#', ' '] := by decide
  rw [hline]
  exact ((Decimal.isWord_digits _).unbroken.append hmiddle).append
    (hcomment.append (Decimal.isWord_digits _).unbroken)

theorem isDirective_toString (w : Word) (column : Nat) : Token.isDirective ⟨toString w, column⟩ = false := by
  apply decide_eq_false
  intro hdot
  have hmem : '.' ∈ Decimal.digits w.toNat := by
    rw [← w.toList_toString]
    exact List.mem_of_head? hdot
  cases Decimal.isDigit_of_mem_digits hmem

theorem line_constantLine (w : Word) (index : Nat) :
    line .constants (tokens s!"{constantColumn w} # {index}".toList) =
      .ok (.constants, [.constant w]) := by
  obtain ⟨blanks, hblanks, hline⟩ := toList_constantLine w index
  rw [hline, tokens_commented (Decimal.isWord_digits _) hblanks, ← w.toList_toString, String.ofList_toList,
    line, isDirective_toString]
  simp only [constants, constant?_toString]
  rfl

/-! ## Directives -/

theorem line_constants (current : Section) :
    line current (tokens ".constants".toList) = .ok (.constants, []) := by
  have htokens : tokens ".constants".toList = [⟨".constants", 1⟩] := by decide
  rw [htokens]
  rfl

theorem toList_sourceLine (index : Nat) :
    s!".source # {index}".toList = ".source".toList ++ [' '] ++ '#' :: ' ' :: Decimal.digits index := by
  show (".source # " ++ toString index).toList = _
  rw [String.toList_append, Decimal.toList_toString]
  rfl

theorem unbroken_sourceLine (index : Nat) : Text.Unbroken s!".source # {index}".toList := by
  have hhead : Text.Unbroken (".source".toList ++ [' '] ++ ['#', ' ']) := by decide
  rw [toList_sourceLine]
  exact hhead.append (Decimal.isWord_digits index).unbroken

theorem line_source (current : Section) (index : Nat) :
    line current (tokens s!".source # {index}".toList) = .ok (.code, [.source]) := by
  have hword : IsWord ".source".toList := by decide
  have hblanks : ∀ c ∈ [' '], c = ' ' := by
    intro c hc
    exact List.mem_singleton.mp hc
  rw [toList_sourceLine, tokens_commented hword hblanks, String.ofList_toList]
  rfl

end Assembly

end TokenSale
