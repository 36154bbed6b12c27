import Mathlib.Data.List.Induction
import Mathlib.Data.Nat.Digits.Defs
import TokenSale.Word

/-!
# What runs of digits denote

A run of digits denotes a number by place value (`Denotes`): the last digit counts once, every other one as many times
more as the base says. Both readers of digits accept exactly the runs that denote something and read them as what they
denote. A reader of bounded numbers also accepts one plus sign before the digits; a reader of hexadecimal words
accepts `0x` before them, and at most 64 of them.
-/

namespace TokenSale

/-- A run of digits denotes a number in a base. -/
def Denotes (base : Nat) (digit? : Char → Option Nat) (run : List Char) (n : Nat) : Prop :=
  ∃ ds : List Nat, run.map digit? = ds.map some ∧ Nat.ofDigits base ds.reverse = n

section

variable {base : Nat} {digit? : Char → Option Nat}

theorem denotes_nil {n : Nat} : Denotes base digit? [] n ↔ n = 0 := by
  constructor
  · rintro ⟨ds, hds, rfl⟩
    rw [List.map_eq_nil_iff.mp hds.symm]
    rfl
  · rintro rfl
    exact ⟨[], rfl, rfl⟩

/-- A further digit multiplies by the base and adds. -/
theorem denotes_concat {run : List Char} {c : Char} {n : Nat} :
    Denotes base digit? (run ++ [c]) n ↔
      ∃ m d, Denotes base digit? run m ∧ digit? c = some d ∧ base * m + d = n := by
  constructor
  · rintro ⟨ds, hds, rfl⟩
    rw [List.map_append] at hds
    obtain ⟨before, last, rfl, hbefore, hlast⟩ := List.append_eq_map_iff.mp hds
    obtain ⟨d, rest, rfl, hd, hrest⟩ := List.map_eq_cons_iff.mp hlast
    rw [List.map_eq_nil_iff.mp hrest]
    refine ⟨Nat.ofDigits base before.reverse, d, ⟨before, hbefore.symm, rfl⟩, hd.symm, ?_⟩
    rw [List.reverse_append, List.reverse_singleton, List.singleton_append, Nat.ofDigits_cons, Nat.add_comm]
  · rintro ⟨m, d, ⟨ds, hds, rfl⟩, hd, rfl⟩
    refine ⟨ds ++ [d], ?_, ?_⟩
    · rw [List.map_append, List.map_append, hds, List.map_singleton, List.map_singleton, hd]
    · rw [List.reverse_append, List.reverse_singleton, List.singleton_append, Nat.ofDigits_cons, Nat.add_comm]

/-- Reading digit by digit finds what a run denotes. -/
theorem foldlM_eq_some_iff {run : List Char} {n : Nat} :
    run.foldlM (fun m c => (digit? c).map (base * m + ·)) 0 = some n ↔ Denotes base digit? run n := by
  induction run using List.reverseRecOn generalizing n with
  | nil =>
    rw [denotes_nil]
    exact Option.some_inj.trans eq_comm
  | append_singleton run c ih =>
    rw [List.foldlM_append, denotes_concat]
    constructor
    · intro h
      obtain ⟨m, hm, hrest⟩ := Option.bind_eq_some_iff.mp h
      rw [List.foldlM_cons] at hrest
      obtain ⟨k, hk, hn⟩ := Option.bind_eq_some_iff.mp hrest
      obtain ⟨d, hd, rfl⟩ := Option.map_eq_some_iff.mp hk
      exact ⟨m, d, ih.mp hm, hd, Option.some.inj hn⟩
    · rintro ⟨m, d, hm, hd, rfl⟩
      apply Option.bind_eq_some_iff.mpr
      refine ⟨m, ih.mpr hm, ?_⟩
      rw [List.foldlM_cons, hd]
      rfl

instance (run : List Char) (n : Nat) : Decidable (Denotes base digit? run n) :=
  decidable_of_iff _ foldlM_eq_some_iff

/-- A run that denotes something is made up of digits. -/
theorem Denotes.exists_digit? {run : List Char} {n : Nat} (h : Denotes base digit? run n) {c : Char}
    (hc : c ∈ run) : ∃ d, digit? c = some d := by
  obtain ⟨ds, hds, -⟩ := h
  have hmem : digit? c ∈ ds.map some := by
    rw [← hds]
    exact List.mem_map_of_mem hc
  obtain ⟨d, -, hd⟩ := List.mem_map.mp hmem
  exact ⟨d, hd.symm⟩

end

/-! ## Digits after a mark -/

section

variable (P : List Char → Prop) (mark : List Char)

/-- After a mark that no digits start with, digits are what follows the mark. -/
theorem exists_after_mark (h : ∀ run, ¬ P (mark ++ run)) (run : List Char) :
    (∃ digits, (mark ++ run = digits ∨ mark ++ run = mark ++ digits) ∧ P digits) ↔ P run := by
  constructor
  · rintro ⟨digits, rfl | hsame, hdigits⟩
    · exact absurd hdigits (h run)
    · rwa [List.append_cancel_left hsame]
  · intro hrun
    exact ⟨run, Or.inr rfl, hrun⟩

theorem exists_without_mark {cs : List Char} (h : ∀ run, cs ≠ mark ++ run) :
    (∃ digits, (cs = digits ∨ cs = mark ++ digits) ∧ P digits) ↔ P cs := by
  constructor
  · rintro ⟨digits, rfl | hmark, hdigits⟩
    · exact hdigits
    · exact absurd hmark (h digits)
  · intro hcs
    exact ⟨cs, Or.inl rfl, hcs⟩

end

/-! ## The readers of digits -/

namespace Decimal

/-- A run of decimal digits denotes a number. -/
abbrev Denotes (run : List Char) (n : Nat) : Prop := TokenSale.Denotes 10 digit? run n

theorem value?_eq_some_iff {run : List Char} {n : Nat} : value? run = some n ↔ Denotes run n :=
  foldlM_eq_some_iff

theorem natural?_eq_some_iff {bound n : Nat} {cs : List Char} :
    natural? bound cs = some n ↔
      ∃ run, (cs = run ∨ cs = '+' :: run) ∧ run ≠ [] ∧ Denotes run n ∧ n < bound := by
  have hread : ∀ run : List Char,
      (if run = [] then none else (value? run).filter (· < bound)) = some n ↔
        run ≠ [] ∧ Denotes run n ∧ n < bound := by
    intro run
    split
    · next h => simp [h]
    · next h => rw [Option.filter_eq_some_iff, value?_eq_some_iff, decide_eq_true_eq, and_iff_right h]
  have hplus : ∀ run : List Char, ¬ ('+' :: run ≠ [] ∧ Denotes ('+' :: run) n ∧ n < bound) := by
    rintro run ⟨-, h, -⟩
    obtain ⟨d, hd⟩ := h.exists_digit? List.mem_cons_self
    cases hd
  unfold natural?
  dsimp only
  split
  · next run =>
    rw [hread]
    exact (exists_after_mark (fun run => run ≠ [] ∧ Denotes run n ∧ n < bound) ['+'] hplus run).symm
  · next hsign =>
    rw [hread]
    exact (exists_without_mark (fun run => run ≠ [] ∧ Denotes run n ∧ n < bound) ['+'] hsign).symm

end Decimal

namespace Hexadecimal

/-- A run of hexadecimal digits denotes a number. -/
abbrev Denotes (run : List Char) (n : Nat) : Prop := TokenSale.Denotes 16 digit? run n

theorem value?_eq_some_iff {run : List Char} {n : Nat} : value? run = some n ↔ Denotes run n :=
  foldlM_eq_some_iff

end Hexadecimal

namespace Word

theorem bind_ofNat?_eq_some_iff {value : Option Nat} {w : Word} :
    value.bind ofNat? = some w ↔ value = some w.toNat := by
  constructor
  · intro h
    obtain ⟨n, rfl, hn⟩ := Option.bind_eq_some_iff.mp h
    rw [ofNat?_eq_some_iff.mp hn]
  · rintro rfl
    rw [Option.bind_some, ofNat?_toNat]

theorem ofDecimal?_eq_some_iff {cs : List Char} {w : Word} :
    ofDecimal? cs = some w ↔ Decimal.Denotes cs w.toNat := by
  rw [ofDecimal?, bind_ofNat?_eq_some_iff, Decimal.value?_eq_some_iff]

theorem ofHexadecimal?_eq_some_iff {cs : List Char} {w : Word} :
    ofHexadecimal? cs = some w ↔
      ∃ run, (cs = run ∨ cs = '0' :: 'x' :: run) ∧ run.length ≤ 64 ∧ Hexadecimal.Denotes run w.toNat := by
  have hread : ∀ run : List Char,
      (if run.length ≤ 64 then (Hexadecimal.value? run).bind ofNat? else none) = some w ↔
        run.length ≤ 64 ∧ Hexadecimal.Denotes run w.toNat := by
    intro run
    split
    · next h => rw [bind_ofNat?_eq_some_iff, Hexadecimal.value?_eq_some_iff, and_iff_right h]
    · next h => simp [h]
  have hintroduced : ∀ run : List Char,
      ¬ (('0' :: 'x' :: run).length ≤ 64 ∧ Hexadecimal.Denotes ('0' :: 'x' :: run) w.toNat) := by
    rintro run ⟨-, h⟩
    obtain ⟨d, hd⟩ := h.exists_digit? (List.mem_cons_of_mem '0' List.mem_cons_self)
    cases hd
  unfold ofHexadecimal?
  dsimp only
  split
  · next run =>
    rw [hread]
    exact (exists_after_mark (fun run => run.length ≤ 64 ∧ Hexadecimal.Denotes run w.toNat) ['0', 'x']
      hintroduced run).symm
  · next hx =>
    rw [hread]
    exact (exists_without_mark (fun run => run.length ≤ 64 ∧ Hexadecimal.Denotes run w.toNat) ['0', 'x'] hx).symm

end Word

end TokenSale
