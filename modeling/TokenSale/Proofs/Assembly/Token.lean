import TokenSale.Assembly.Token
import TokenSale.Proofs.Text.Lines
import TokenSale.Text.Size

/-!
# The tokens of a written line

A word is a run of characters that are no separators and start no comment. A line of words with a blank between two of
them has these words as its tokens, whatever blanks and whatever comment follow.
-/

namespace TokenSale.Assembly

open Text (byteLength)

/-- Characters that make up one token. -/
structure IsWord (word : List Char) : Prop where
  ne_nil : word ≠ []
  not_separator : ∀ c ∈ word, isSeparator c = false
  not_comment : ∀ c ∈ word, c ≠ '#'

instance (word : List Char) : Decidable (IsWord word) :=
  decidable_of_iff
    (word ≠ [] ∧ (word.all fun c => !isSeparator c) = true ∧ (word.all fun c => c != '#') = true) (by
      simp only [List.all_eq_true, Bool.not_eq_true', bne_iff_ne]
      constructor
      · rintro ⟨hne, hseparator, hcomment⟩
        exact ⟨hne, hseparator, hcomment⟩
      · intro h
        exact ⟨h.ne_nil, h.not_separator, h.not_comment⟩)

theorem IsWord.unbroken {word : List Char} (hword : IsWord word) : Text.Unbroken word := by
  intro c hc
  have hseparator := hword.not_separator c hc
  constructor
  · rintro rfl
    cases hseparator
  · rintro rfl
    cases hseparator

/-! ## Comments -/

theorem withoutComment_append {code : List Char} (h : ∀ c ∈ code, c ≠ '#') (rest : List Char) :
    withoutComment (code ++ rest) = code ++ withoutComment rest := by
  apply List.takeWhile_append_of_pos
  intro c hc
  exact decide_eq_true (h c hc)

theorem withoutComment_of_forall {code : List Char} (h : ∀ c ∈ code, c ≠ '#') :
    withoutComment code = code := by
  have happend := withoutComment_append h []
  rw [List.append_nil] at happend
  exact happend.trans (List.append_nil code)

theorem withoutComment_commented {code : List Char} (h : ∀ c ∈ code, c ≠ '#') (comment : List Char) :
    withoutComment (code ++ '#' :: comment) = code := by
  rw [withoutComment_append h]
  exact List.append_nil code

/-! ## Scanning -/

theorem scan_append {run : List Char} (h : ∀ c ∈ run, isSeparator c = false) (column : Nat)
    (rest : List Char) :
    scan column (run ++ rest) =
      (run ++ (scan (column + byteLength run) rest).1, (scan (column + byteLength run) rest).2) := by
  induction run generalizing column with
  | nil => rfl
  | cons c run ih =>
    have hc := h c List.mem_cons_self
    have hnext : column + c.utf8Size + byteLength run = column + byteLength (c :: run) := by
      rw [byteLength, Nat.add_assoc]
    rw [List.cons_append, scan, ih (fun d hd => h d (List.mem_cons_of_mem c hd)), hc, hnext]
    rfl

theorem scan_blanks {blanks : List Char} (h : ∀ c ∈ blanks, isSeparator c = true) (column : Nat) :
    scan column blanks = ([], []) := by
  induction blanks generalizing column with
  | nil => rfl
  | cons c blanks ih =>
    rw [scan, ih fun d hd => h d (List.mem_cons_of_mem c hd)]
    exact if_pos (h c List.mem_cons_self)

theorem close_scan {word rest : List Char} (hword : IsWord word) (column : Nat)
    (hrest : (scan (column + byteLength word) rest).1 = []) :
    close column (scan column (word ++ rest)).1 (scan column (word ++ rest)).2 =
      ⟨String.ofList word, column⟩ :: (scan (column + byteLength word) rest).2 := by
  rw [scan_append hword.not_separator, hrest, List.append_nil, close, if_neg hword.ne_nil]

theorem close_scan_self {word : List Char} (hword : IsWord word) (column : Nat) :
    close column (scan column word).1 (scan column word).2 = [⟨String.ofList word, column⟩] := by
  have hclose : close column (scan column (word ++ [])).1 (scan column (word ++ [])).2 = _ :=
    close_scan hword column rfl
  rw [List.append_nil] at hclose
  exact hclose

/-! ## Lines -/

theorem tokens_of_withoutComment {line code : List Char} (h : withoutComment line = code) :
    tokens line = close 1 (scan 1 code).1 (scan 1 code).2 := by
  rw [tokens, h]

theorem tokens_word {word : List Char} (hword : IsWord word) :
    tokens word = [⟨String.ofList word, 1⟩] := by
  rw [tokens_of_withoutComment (withoutComment_of_forall hword.not_comment), close_scan_self hword]

theorem tokens_commented {word blanks : List Char} (hword : IsWord word)
    (hblanks : ∀ c ∈ blanks, c = ' ') (comment : List Char) :
    tokens (word ++ blanks ++ '#' :: comment) = [⟨String.ofList word, 1⟩] := by
  have hcomment : ∀ c ∈ word ++ blanks, c ≠ '#' := by
    intro c hc
    rcases List.mem_append.mp hc with h | h
    · exact hword.not_comment c h
    · rw [hblanks c h]
      decide
  have hscan : scan (1 + byteLength word) blanks = ([], []) := by
    apply scan_blanks
    intro c hc
    rw [hblanks c hc]
    rfl
  rw [tokens_of_withoutComment (withoutComment_commented hcomment comment),
    close_scan hword 1 (congrArg Prod.fst hscan), hscan]

theorem tokens_words {first second : List Char} (hfirst : IsWord first) (hsecond : IsWord second) :
    tokens (first ++ ' ' :: second) =
      [⟨String.ofList first, 1⟩, ⟨String.ofList second, 1 + byteLength first + 1⟩] := by
  have hcomment : ∀ c ∈ first ++ ' ' :: second, c ≠ '#' := by
    intro c hc
    rcases List.mem_append.mp hc with h | h
    · exact hfirst.not_comment c h
    · rcases List.mem_cons.mp h with rfl | h
      · decide
      · exact hsecond.not_comment c h
  have hscan : scan (1 + byteLength first) (' ' :: second) =
      ([], [⟨String.ofList second, 1 + byteLength first + 1⟩]) :=
    congrArg (Prod.mk []) (close_scan_self hsecond (1 + byteLength first + 1))
  rw [tokens_of_withoutComment (withoutComment_of_forall hcomment),
    close_scan hfirst 1 (congrArg Prod.fst hscan), hscan]

end TokenSale.Assembly
