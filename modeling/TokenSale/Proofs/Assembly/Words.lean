import TokenSale.Proofs.Assembly.Token

/-!
# The words of a line

The words of a line are the nonempty pieces between the separators of its part before the comment (`words`). The tokens
of a line have these texts, in their order, and every token stands where its column says: it is a longest run of token
characters before the comment (`Stands`), and its column is one more than the number of bytes before it.
-/

namespace TokenSale.Assembly

open Text (byteLength byteLength_append)

/-- The words of a line. -/
def words (line : List Char) : List String :=
  (((withoutComment line).splitOnP isSeparator).filter (· ≠ [])).map String.ofList

/-- A word between what stands before it and after it in a line. -/
structure Stands (before word after : List Char) : Prop where
  isWord : IsWord word
  before_comment : ∀ c ∈ before, c ≠ '#'
  starts : ∀ c, before.getLast? = some c → isSeparator c = true
  ends : ∀ c, after.head? = some c → isSeparator c = true ∨ c = '#'

theorem mem_close {column : Nat} {run : List Char} {after : List Token} {t : Token} :
    t ∈ close column run after ↔ (run ≠ [] ∧ t = ⟨String.ofList run, column⟩) ∨ t ∈ after := by
  rw [close]
  split
  · next h => simp [h]
  · next h => rw [List.mem_cons, and_iff_right h]

theorem map_text_close (column : Nat) (run : List Char) (after : List Token) :
    (close column run after).map Token.text =
      ([run].filter (· ≠ [])).map String.ofList ++ after.map Token.text := by
  rw [close]
  split
  · next h => simp [h]
  · next h => simp [h]

/-! ## The texts of the tokens -/

theorem splitOnP_scan (column : Nat) (code : List Char) :
    ∃ pieces, code.splitOnP isSeparator = (scan column code).1 :: pieces ∧
      (pieces.filter (· ≠ [])).map String.ofList = (scan column code).2.map Token.text := by
  induction code generalizing column with
  | nil => exact ⟨[], List.splitOnP_nil, rfl⟩
  | cons c code ih =>
    obtain ⟨pieces, hpieces, htexts⟩ := ih (column + c.utf8Size)
    rw [List.splitOnP_cons_eq_if_modifyHead, hpieces, scan]
    dsimp only
    split
    · refine ⟨_, rfl, ?_⟩
      rw [map_text_close, ← htexts, ← List.map_append, ← List.filter_append]
      rfl
    · exact ⟨pieces, rfl, htexts⟩

theorem map_text_tokens (line : List Char) : (tokens line).map Token.text = words line := by
  obtain ⟨pieces, hpieces, htexts⟩ := splitOnP_scan 1 (withoutComment line)
  rw [tokens_of_withoutComment rfl, map_text_close, words, hpieces, ← htexts, ← List.map_append,
    ← List.filter_append]
  rfl

/-! ## The columns of the tokens -/

theorem scan_fst (column : Nat) (code : List Char) :
    (scan column code).1 = code.takeWhile fun c => !isSeparator c := by
  induction code generalizing column with
  | nil => rfl
  | cons c code ih =>
    rw [scan, List.takeWhile_cons]
    dsimp only
    cases isSeparator c with
    | true => rfl
    | false => exact congrArg (c :: ·) (ih _)

/-- A longest run of token characters at the front of code stands there. -/
theorem stands_takeWhile {before code comment : List Char} (hne : (code.takeWhile fun c => !isSeparator c) ≠ [])
    (hbefore : ∀ c ∈ before, c ≠ '#') (hcode : ∀ c ∈ code, c ≠ '#')
    (hstarts : ∀ c, before.getLast? = some c → isSeparator c = true)
    (hcomment : ∀ c, comment.head? = some c → c = '#') :
    Stands before (code.takeWhile fun c => !isSeparator c) ((code.dropWhile fun c => !isSeparator c) ++ comment) where
  isWord := by
    refine ⟨hne, ?_, ?_⟩
    · intro c hc
      exact (Bool.not_eq_true' _).mp (List.all_eq_true.mp List.all_takeWhile c hc)
    · intro c hc
      exact hcode c ((List.takeWhile_sublist _).subset hc)
  before_comment := hbefore
  starts := hstarts
  ends := by
    intro c hc
    rw [List.head?_append] at hc
    cases hrest : (code.dropWhile fun c => !isSeparator c).head? with
    | none =>
      rw [hrest, Option.none_or] at hc
      exact Or.inr (hcomment c hc)
    | some d =>
      rw [hrest, Option.some_or] at hc
      have hd := List.head?_dropWhile_not (fun c => !isSeparator c) code
      rw [hrest] at hd
      cases hc
      exact Or.inl ((Bool.not_eq_false' _).mp hd)

-- `done` is what was scanned before `code`. The run at the front of `code` may go on from `done`, so only the tokens
-- after it have their place here.
theorem stands_of_mem_scan {done code comment : List Char} {t : Token} (hdone : ∀ c ∈ done, c ≠ '#')
    (hcode : ∀ c ∈ code, c ≠ '#') (hcomment : ∀ c, comment.head? = some c → c = '#')
    (ht : t ∈ (scan (1 + byteLength done) code).2) :
    ∃ before word after, done ++ code ++ comment = before ++ word ++ after ∧ Stands before word after ∧
      t = ⟨String.ofList word, 1 + byteLength before⟩ := by
  induction code generalizing done with
  | nil => cases ht
  | cons c code ih =>
    have hdone' : ∀ d ∈ done ++ [c], d ≠ '#' := by
      intro d hd
      rcases List.mem_append.mp hd with h | h
      · exact hdone d h
      · rw [List.mem_singleton.mp h]
        exact hcode c List.mem_cons_self
    have hcode' : ∀ d ∈ code, d ≠ '#' := fun d hd => hcode d (List.mem_cons_of_mem c hd)
    have hline : done ++ c :: code ++ comment = done ++ [c] ++ code ++ comment := by
      simp only [List.append_assoc, List.cons_append, List.nil_append]
    have hcolumn : 1 + byteLength done + c.utf8Size = 1 + byteLength (done ++ [c]) := by
      rw [byteLength_append, Nat.add_assoc]
      rfl
    rw [scan, hcolumn] at ht
    dsimp only at ht
    rw [hline]
    split at ht
    · next hc =>
      rcases mem_close.mp ht with ⟨hne, rfl⟩ | ht
      · rw [scan_fst] at hne ⊢
        have hstarts : ∀ d, (done ++ [c]).getLast? = some d → isSeparator d = true := by
          intro d hd
          rw [List.getLast?_concat] at hd
          cases hd
          exact hc
        refine ⟨done ++ [c], _, _, ?_, stands_takeWhile hne hdone' hcode' hstarts hcomment, rfl⟩
        rw [List.append_assoc, List.append_assoc, List.append_assoc, List.append_assoc,
          ← List.append_assoc (List.takeWhile _ _), List.takeWhile_append_dropWhile]
      · exact ih hdone' hcode' ht
    · exact ih hdone' hcode' ht

/-- Every token stands where its column says. -/
theorem stands_of_mem_tokens {line : List Char} {t : Token} (ht : t ∈ tokens line) :
    ∃ before word after, line = before ++ word ++ after ∧ Stands before word after ∧
      t = ⟨String.ofList word, 1 + byteLength before⟩ := by
  have hline : withoutComment line ++ line.dropWhile (· ≠ '#') = line := List.takeWhile_append_dropWhile
  have hcode : ∀ c ∈ withoutComment line, c ≠ '#' := by
    intro c hc
    exact of_decide_eq_true (List.all_eq_true.mp List.all_takeWhile c hc)
  have hcomment : ∀ c, (line.dropWhile (· ≠ '#')).head? = some c → c = '#' := by
    intro c hc
    have hd := List.head?_dropWhile_not (· ≠ '#') line
    rw [hc] at hd
    exact Decidable.of_not_not (of_decide_eq_false hd)
  rw [tokens_of_withoutComment rfl] at ht
  rcases mem_close.mp ht with ⟨hne, rfl⟩ | ht
  · rw [scan_fst] at hne ⊢
    refine ⟨[], _, _, ?_, stands_takeWhile hne ?_ hcode ?_ hcomment, rfl⟩
    · rw [List.nil_append, ← List.append_assoc, List.takeWhile_append_dropWhile, hline]
    · intro c hc
      cases hc
    · intro c hc
      cases hc
  · obtain ⟨before, word, after, hsame, hstands, rfl⟩ :=
      @stands_of_mem_scan [] _ _ t (by intro c hc; cases hc) hcode hcomment ht
    rw [List.nil_append, hline] at hsame
    exact ⟨before, word, after, hsame, hstands, rfl⟩

end TokenSale.Assembly
