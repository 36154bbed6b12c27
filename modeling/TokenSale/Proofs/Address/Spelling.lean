import TokenSale.Theory.Numerals

/-!
# Spellings of addresses

The 40 characters of an address are read two at a time, each pair as a number of its own, and such a number may carry
a plus sign. So the texts that are read are `0x` and 40 characters that are hexadecimal digits or, where the first
digit of a pair is due, plus signs; the address is then written with lower-case digits and with a zero for every plus
sign (`ofText_exact`). The texts that are no addresses and read as some are those with a plus sign.
-/

namespace TokenSale

namespace Hexadecimal

/-- The hexadecimal digits, in both cases. -/
def alphabet : List Char := "0123456789abcdefABCDEF".toList

theorem mem_alphabet_of_digit? {c : Char} {d : Nat} (h : digit? c = some d) : c ∈ alphabet := by
  have hascii : c.toNat < 128 := by
    unfold digit? at h
    split at h
    · next hc => exact Nat.lt_of_le_of_lt (Char.le_def.mp hc.2) (by decide)
    · split at h
      · next hc => exact Nat.lt_of_le_of_lt (Char.le_def.mp hc.2) (by decide)
      · split at h
        · next hc => exact Nat.lt_of_le_of_lt (Char.le_def.mp hc.2) (by decide)
        · cases h
  have hall : ∀ n : Fin 128, (digit? (Char.ofNat n.val)).isSome = true → Char.ofNat n.val ∈ alphabet := by
    decide
  have hc := hall ⟨c.toNat, hascii⟩
  rw [Char.ofNat_toNat, h] at hc
  exact hc rfl

/-- A digit of either case stands for a number that is written with the digit in lower case. -/
theorem exists_digit? {c : Char} (h : c ∈ alphabet) : ∃ d < 16, digit? c = some d ∧ digitChar d = c.toLower := by
  have hall : alphabet.all (fun c => ((digit? c).filter (· < 16)).map digitChar = some c.toLower) = true := by
    decide
  obtain ⟨d, hd, hwritten⟩ := Option.map_eq_some_iff.mp (of_decide_eq_true (List.all_eq_true.mp hall c h))
  obtain ⟨hdigit, hlt⟩ := Option.filter_eq_some_iff.mp hd
  exact ⟨d, of_decide_eq_true hlt, hdigit, hwritten⟩

theorem digits_mod (width n : Nat) : digits width (n % 16 ^ width) = digits width n := by
  induction width generalizing n with
  | zero => rfl
  | succ width ih =>
    have hdiv : n % 16 ^ (width + 1) / 16 = n / 16 % 16 ^ width := by
      rw [pow_succ', Nat.mod_mul_right_div_self]
    have hmod : n % 16 ^ (width + 1) % 16 = n % 16 :=
      Nat.mod_mod_of_dvd n ⟨16 ^ width, pow_succ' 16 width⟩
    rw [digits, digits, hdiv, hmod, ih]

/-- One more byte writes two more digits. -/
theorem digits_byte (width n : Nat) {high low : Nat} (hhigh : high < 16) (hlow : low < 16) :
    digits (width + 2) (256 * n + (16 * high + low)) = digits width n ++ [digitChar high, digitChar low] := by
  have hlast : (256 * n + (16 * high + low)) % 16 = low := by omega
  have hnext : (256 * n + (16 * high + low)) / 16 % 16 = high := by omega
  have hrest : (256 * n + (16 * high + low)) / 16 / 16 = n := by omega
  rw [digits, digits, hlast, hnext, hrest, List.append_assoc]
  rfl

end Hexadecimal

namespace Address

open Hexadecimal

/-- The form that is documented: `0x` and 40 hexadecimal digits. -/
def IsDocumented (cs : List Char) : Prop :=
  ∃ run, cs = '0' :: 'x' :: run ∧ run.length = 40 ∧ ∀ c ∈ run, c ∈ alphabet

/-- Characters that are read in pairs: hexadecimal digits, or a plus sign in place of the first digit of a pair. -/
def IsPaired (run : List Char) : Prop :=
  ∀ i c, run[i]? = some c → c ∈ alphabet ∨ c = '+' ∧ i % 2 = 0

/-- The form that is read: `0x` and 40 characters in pairs. -/
def IsSpelled (cs : List Char) : Prop :=
  ∃ run, cs = '0' :: 'x' :: run ∧ run.length = 40 ∧ IsPaired run

/-- The character that an address is written with in the place of one that it is read from. -/
def plain (c : Char) : Char := if c = '+' then '0' else c.toLower

theorem plain_of_mem {c : Char} (h : c ∈ alphabet) : plain c = c.toLower := by
  have hplus : c ≠ '+' := by
    rintro rfl
    exact absurd h (by decide)
  exact if_neg hplus

/-! ## Pairs -/

theorem pair?_of_mem {high low : Char} (hhigh : high ∈ alphabet ∨ high = '+') (hlow : low ∈ alphabet) :
    ∃ h l, h < 16 ∧ l < 16 ∧ pair? high low = some (16 * h + l) ∧
      digitChar h = plain high ∧ digitChar l = plain low := by
  obtain ⟨l, hl, hdigit, hwritten⟩ := exists_digit? hlow
  rcases hhigh with hhigh | rfl
  · obtain ⟨h, hh, hdigit', hwritten'⟩ := exists_digit? hhigh
    have hplus : high ≠ '+' := by
      rintro rfl
      exact absurd hhigh (by decide)
    refine ⟨h, l, hh, hl, ?_, ?_, ?_⟩
    · rw [pair?, hdigit, Option.bind_some, if_neg hplus, hdigit', Option.map_some]
    · rw [hwritten', plain_of_mem hhigh]
    · rw [hwritten, plain_of_mem hlow]
  · refine ⟨0, l, by decide, hl, ?_, rfl, ?_⟩
    · rw [pair?, hdigit, Option.bind_some, if_pos rfl, Nat.mul_zero, Nat.zero_add]
    · rw [hwritten, plain_of_mem hlow]

theorem mem_of_pair? {high low : Char} {byte : Nat} (h : pair? high low = some byte) :
    (high ∈ alphabet ∨ high = '+') ∧ low ∈ alphabet := by
  obtain ⟨l, hl, hrest⟩ := Option.bind_eq_some_iff.mp h
  refine ⟨?_, mem_alphabet_of_digit? hl⟩
  split at hrest
  · next hplus => exact Or.inr hplus
  · obtain ⟨d, hd, -⟩ := Option.map_eq_some_iff.mp hrest
    exact Or.inl (mem_alphabet_of_digit? hd)

theorem isPaired_cons_cons {high low : Char} {rest : List Char} :
    IsPaired (high :: low :: rest) ↔
      ((high ∈ alphabet ∨ high = '+') ∧ low ∈ alphabet) ∧ IsPaired rest := by
  constructor
  · intro h
    refine ⟨⟨?_, ?_⟩, ?_⟩
    · rcases h 0 high rfl with hhigh | ⟨hplus, -⟩
      · exact Or.inl hhigh
      · exact Or.inr hplus
    · rcases h 1 low rfl with hlow | ⟨-, hodd⟩
      · exact hlow
      · exact absurd hodd (by decide)
    · intro i c hi
      have hshift := h (i + 2) c hi
      rwa [Nat.add_mod_right] at hshift
  · rintro ⟨⟨hhigh, hlow⟩, hrest⟩ i c hi
    match i, hi with
    | 0, hi =>
      cases hi
      exact hhigh.imp_right fun hplus => ⟨hplus, rfl⟩
    | 1, hi =>
      cases hi
      exact Or.inl hlow
    | i + 2, hi =>
      rw [Nat.add_mod_right]
      exact hrest i c hi

/-! ## Runs of pairs -/

-- The induction takes two characters at a time, as they are read; `n` is what was read before them.
theorem pairs?_of_isPaired {run : List Char} (heven : run.length % 2 = 0) (hrun : IsPaired run) (n : Nat) :
    ∃ m, pairs? n run = some m ∧ ∀ width, digits (width + run.length) m = digits width n ++ run.map plain := by
  fun_induction pairs? n run with
  | case1 n =>
    refine ⟨n, rfl, ?_⟩
    intro width
    rw [List.map_nil, List.append_nil]
    rfl
  | case2 n c => cases heven
  | case3 n high low rest ih =>
    obtain ⟨⟨hhigh, hlow⟩, hrest⟩ := isPaired_cons_cons.mp hrun
    obtain ⟨h, l, hh, hl, hpair, hwritten, hwritten'⟩ := pair?_of_mem hhigh hlow
    have heven' : rest.length % 2 = 0 := by
      rw [List.length_cons, List.length_cons, Nat.add_assoc, Nat.add_mod_right] at heven
      exact heven
    obtain ⟨m, hm, hdigits⟩ := ih (16 * h + l) heven' hrest
    refine ⟨m, ?_, ?_⟩
    · rw [hpair, Option.bind_some, hm]
    · intro width
      have hlength : width + (high :: low :: rest).length = width + 2 + rest.length := by
        rw [List.length_cons, List.length_cons]
        omega
      rw [hlength, hdigits, digits_byte width n hh hl, hwritten, hwritten', List.append_assoc]
      rfl

theorem isPaired_of_pairs? {run : List Char} {n m : Nat} (h : pairs? n run = some m) : IsPaired run := by
  fun_induction pairs? n run with
  | case1 n =>
    intro i c hi
    cases hi
  | case2 n c => cases h
  | case3 n high low rest ih =>
    obtain ⟨byte, hbyte, hrest⟩ := Option.bind_eq_some_iff.mp h
    exact isPaired_cons_cons.mpr ⟨mem_of_pair? hbyte, ih byte hrest⟩

/-! ## Texts -/

/-- An address keeps 40 hexadecimal digits of a number. -/
theorem toNat_truncate (n : Nat) : (truncate n).toNat = n % 16 ^ 40 := by
  have hsize : size = 16 ^ 40 := by decide
  rw [← hsize]
  rfl

theorem exists_ofChars? {cs : List Char} (h : IsSpelled cs) :
    ∃ a, ofChars? cs = some a ∧ a.chars = cs.map plain := by
  obtain ⟨run, rfl, hlength, hrun⟩ := h
  have heven : run.length % 2 = 0 := by rw [hlength]
  obtain ⟨m, hm, hdigits⟩ := pairs?_of_isPaired heven hrun 0
  refine ⟨truncate m, ?_, ?_⟩
  · rw [ofChars?, if_pos hlength, hm, Option.map_some]
  · have hwritten := hdigits 0
    rw [Nat.zero_add, hlength, digits, List.nil_append] at hwritten
    rw [chars, toNat_truncate, digits_mod, hwritten]
    rfl

theorem isSpelled_of_ofChars? {cs : List Char} {a : Address} (h : ofChars? cs = some a) : IsSpelled cs := by
  unfold ofChars? at h
  split at h
  · next run =>
    split at h
    · next hlength =>
      obtain ⟨m, hm, -⟩ := Option.map_eq_some_iff.mp h
      exact ⟨run, rfl, hlength, isPaired_of_pairs? hm⟩
    · cases h
  · cases h

theorem isDocumented_iff {cs : List Char} : IsDocumented cs ↔ IsSpelled cs ∧ '+' ∉ cs := by
  constructor
  · rintro ⟨run, rfl, hlength, hrun⟩
    refine ⟨⟨run, rfl, hlength, ?_⟩, ?_⟩
    · intro i c hi
      exact Or.inl (hrun c (List.mem_of_getElem? hi))
    · intro hplus
      rcases List.mem_cons.mp hplus with h | hplus
      · cases h
      · rcases List.mem_cons.mp hplus with h | hplus
        · cases h
        · exact absurd (hrun '+' hplus) (by decide)
  · rintro ⟨⟨run, rfl, hlength, hrun⟩, hplus⟩
    refine ⟨run, rfl, hlength, ?_⟩
    intro c hc
    obtain ⟨i, hi⟩ := List.mem_iff_getElem?.mp hc
    rcases hrun i c hi with h | ⟨rfl, -⟩
    · exact h
    · exact absurd (List.mem_cons_of_mem _ (List.mem_cons_of_mem _ hc)) hplus

/-- **The texts that are addresses.** A text is read exactly when it is `0x` and 40 characters in pairs, and the
address it is read as is written with lower-case digits and a zero for every plus sign; any other text is malformed.
The documented form is the form that is read without plus signs. -/
theorem ofText_exact (s : String) :
    ((∃ a, ofText s = .ok a ∧ a.text = String.ofList (s.toList.map plain)) ↔ IsSpelled s.toList) ∧
      (ofText s = .error (.malformed s) ↔ ¬ IsSpelled s.toList) ∧
      (IsDocumented s.toList ↔ IsSpelled s.toList ∧ '+' ∉ s.toList) := by
  have hread : IsSpelled s.toList → ∃ a, ofText s = .ok a ∧ a.text = String.ofList (s.toList.map plain) := by
    intro h
    obtain ⟨a, ha, hchars⟩ := exists_ofChars? h
    refine ⟨a, ?_, ?_⟩
    · rw [ofText, ha]
    · rw [text, hchars]
  have hrefused : ¬ IsSpelled s.toList → ofText s = .error (.malformed s) := by
    intro h
    cases ha : ofChars? s.toList with
    | none => rw [ofText, ha]
    | some a => exact absurd (isSpelled_of_ofChars? ha) h
  refine ⟨⟨?_, hread⟩, ⟨?_, hrefused⟩, isDocumented_iff⟩
  · rintro ⟨a, ha, -⟩
    by_cases h : IsSpelled s.toList
    · exact h
    · rw [hrefused h] at ha
      cases ha
  · intro hmalformed h
    obtain ⟨a, ha, -⟩ := hread h
    rw [hmalformed] at ha
    cases ha

/-- A text with a plus sign where the first digit is due. -/
def signedText : String := "0x+f00000000000000000000000000000000000000"

/-- It is not of the documented form and is read all the same. -/
theorem ofText_signedText :
    (ofText signedText).map text = .ok "0x0f00000000000000000000000000000000000000" ∧
      ¬ IsDocumented signedText.toList := by
  constructor
  · rfl
  · rw [isDocumented_iff]
    rintro ⟨-, hplus⟩
    exact hplus (by decide)

end Address

end TokenSale
