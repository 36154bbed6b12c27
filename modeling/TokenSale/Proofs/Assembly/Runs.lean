import TokenSale.Proofs.Assembly.Words

/-!
# The tokens of a line are its runs

Every token is a word that stands in the line where its column says (`stands_of_mem_tokens`), and every word that stands
there is a token (`mem_tokens_of_stands`). The columns increase along the tokens (`pairwise_tokens`), so the tokens come in
the order of the line and none comes twice. A column counts bytes, and the bytes of the line from there on are those of the
token (`extract_utf8Encode`).
-/

namespace TokenSale.Assembly

open Text (byteLength byteLength_append)

/-! ## Every run is a token -/

theorem scan_fst_eq_nil {rest : List Char} (h : ∀ c, rest.head? = some c → isSeparator c = true) (column : Nat) :
    (scan column rest).1 = [] := by
  cases rest with
  | nil => rfl
  | cons c rest =>
    rw [scan_fst, List.takeWhile_cons, h c rfl]
    rfl

-- The run at the front of `before` may go on from what was scanned earlier. The word does not belong to it, since a
-- separator comes between, and so it is among the tokens after the run.
theorem mem_scan {before word rest : List Char} (hne : before ≠ [])
    (hstarts : ∀ c, before.getLast? = some c → isSeparator c = true) (hword : IsWord word)
    (hends : ∀ c, rest.head? = some c → isSeparator c = true) (column : Nat) :
    ⟨String.ofList word, column + byteLength before⟩ ∈ (scan column (before ++ word ++ rest)).2 := by
  induction before generalizing column with
  | nil => exact absurd rfl hne
  | cons c before ih =>
    rw [List.cons_append, List.cons_append, scan]
    dsimp only
    cases before with
    | nil =>
      rw [if_pos (hstarts c rfl), List.nil_append, close_scan hword _ (scan_fst_eq_nil hends _)]
      exact List.mem_cons_self
    | cons d before =>
      have hafter := ih (List.cons_ne_nil d before)
        (fun e he => hstarts e (List.getLast?_cons_cons.trans he)) (column + c.utf8Size)
      rw [Nat.add_assoc] at hafter
      split
      · exact mem_close.mpr (Or.inr hafter)
      · exact hafter

/-- The part of a line before the comment goes on after a word. -/
theorem Stands.withoutComment_eq {before word after : List Char} (h : Stands before word after) :
    withoutComment (before ++ word ++ after) = before ++ word ++ withoutComment after := by
  apply withoutComment_append
  intro c hc
  rcases List.mem_append.mp hc with hc | hc
  · exact h.before_comment c hc
  · exact h.isWord.not_comment c hc

/-- It goes on with a separator, if at all. -/
theorem Stands.separates {before word after : List Char} (h : Stands before word after) :
    ∀ c, (withoutComment after).head? = some c → isSeparator c = true := by
  intro c hc
  cases after with
  | nil => cases hc
  | cons d after =>
    rw [withoutComment, List.takeWhile_cons] at hc
    split at hc
    · next hd =>
      cases hc
      exact (h.ends c rfl).resolve_right (of_decide_eq_true hd)
    · cases hc

theorem mem_tokens_of_stands {before word after : List Char} (h : Stands before word after) :
    ⟨String.ofList word, 1 + byteLength before⟩ ∈ tokens (before ++ word ++ after) := by
  rw [tokens_of_withoutComment h.withoutComment_eq]
  by_cases hbefore : before = []
  · subst hbefore
    rw [List.nil_append, close_scan h.isWord 1 (scan_fst_eq_nil h.separates _)]
    exact List.mem_cons_self
  · exact mem_close.mpr (Or.inr (mem_scan hbefore h.starts h.isWord h.separates 1))

/-! ## The order of the tokens -/

theorem column_lt_of_mem_scan {column : Nat} {code : List Char} {t : Token} (ht : t ∈ (scan column code).2) :
    column < t.column := by
  induction code generalizing column with
  | nil => cases ht
  | cons c code ih =>
    have hnext : column < column + c.utf8Size := Nat.lt_add_of_pos_right c.utf8Size_pos
    rw [scan] at ht
    dsimp only at ht
    split at ht
    · rcases mem_close.mp ht with ⟨-, rfl⟩ | ht
      · exact hnext
      · exact Nat.lt_trans hnext (ih ht)
    · exact Nat.lt_trans hnext (ih ht)

theorem pairwise_close {column : Nat} {code : List Char}
    (h : (scan column code).2.Pairwise fun t t' => t.column < t'.column) (run : List Char) :
    (close column run (scan column code).2).Pairwise fun t t' => t.column < t'.column := by
  rw [close]
  split
  · exact h
  · exact List.pairwise_cons.mpr ⟨fun t ht => column_lt_of_mem_scan ht, h⟩

theorem pairwise_scan (column : Nat) (code : List Char) :
    (scan column code).2.Pairwise fun t t' => t.column < t'.column := by
  induction code generalizing column with
  | nil => exact List.Pairwise.nil
  | cons c code ih =>
    rw [scan]
    dsimp only
    split
    · exact pairwise_close (ih _) _
    · exact ih _

theorem pairwise_tokens (line : List Char) : (tokens line).Pairwise fun t t' => t.column < t'.column := by
  rw [tokens_of_withoutComment rfl]
  exact pairwise_close (pairwise_scan 1 _) _

/-! ## The bytes of the tokens -/

theorem size_utf8Encode (cs : List Char) : cs.utf8Encode.size = byteLength cs := by
  induction cs with
  | nil => rfl
  | cons c cs ih =>
    rw [List.utf8Encode_cons, ByteArray.size_append, ih, List.utf8Encode_singleton, List.size_toByteArray,
      String.length_utf8EncodeChar, byteLength]

/-- The bytes of a part of a line stand behind those of what comes before it. -/
theorem extract_utf8Encode (before word after : List Char) :
    (before ++ word ++ after).utf8Encode.extract (byteLength before) (byteLength before + byteLength word) =
      word.utf8Encode := by
  rw [List.append_assoc, List.utf8Encode_append, List.utf8Encode_append, ← size_utf8Encode, ← size_utf8Encode]
  exact (ByteArray.extract_append_size_add (i := 0)).trans (ByteArray.extract_append_eq_left rfl)

/-! ## Lines -/

/-- **The tokens of a line are its runs.** The tokens are exactly the longest runs of characters that are neither commas
nor blank before the first `#`, each with the column where it stands, and they come in the order of their columns. No token
is empty, and the bytes of the line from the column of a token on are the bytes of its text. A comment after a line that
has none changes nothing. -/
theorem tokens_exact (line : List Char) :
    (∀ t, t ∈ tokens line ↔ ∃ before word after, line = before ++ word ++ after ∧ Stands before word after ∧
      t = ⟨String.ofList word, 1 + byteLength before⟩) ∧
      ((tokens line).Pairwise fun t t' => t.column < t'.column) ∧
      (∀ t ∈ tokens line, t.text ≠ "" ∧
        line.utf8Encode.extract (t.column - 1) (t.column - 1 + t.text.utf8ByteSize) = t.text.toByteArray) ∧
      ('#' ∉ line → ∀ comment, tokens (line ++ '#' :: comment) = tokens line) := by
  refine ⟨fun t => ⟨stands_of_mem_tokens, ?_⟩, pairwise_tokens line, ?_, ?_⟩
  · rintro ⟨before, word, after, rfl, hstands, rfl⟩
    exact mem_tokens_of_stands hstands
  · intro t ht
    obtain ⟨before, word, after, rfl, hstands, rfl⟩ := stands_of_mem_tokens ht
    have hsize : (String.ofList word).utf8ByteSize = byteLength word := size_utf8Encode word
    refine ⟨fun hempty => hstands.isWord.ne_nil (String.ofList_eq_empty_iff.mp hempty), ?_⟩
    dsimp only
    rw [Nat.add_sub_cancel_left, hsize]
    exact extract_utf8Encode before word after
  · intro hline comment
    have hcode : ∀ c ∈ line, c ≠ '#' := by
      rintro c hc rfl
      exact hline hc
    rw [tokens_of_withoutComment (withoutComment_commented hcode comment),
      tokens_of_withoutComment (withoutComment_of_forall hcode)]

/-- Two tokens, the first of several bytes, with a comma and a wide blank between them. -/
def wideLine : List Char := "é,\u00a0ADD".toList

theorem tokens_exact_wideLine :
    tokens wideLine = [⟨"é", 1⟩, ⟨"ADD", 6⟩] ∧
      wideLine.utf8Encode.extract (6 - 1) (6 - 1 + 3) = "ADD".toByteArray ∧
      tokens (wideLine ++ "# 2, é".toList) = tokens wideLine := by
  have htokens : tokens wideLine = [⟨"é", 1⟩, ⟨"ADD", 6⟩] := by decide
  obtain ⟨-, -, hbytes, hcomment⟩ := tokens_exact wideLine
  refine ⟨htokens, ?_, hcomment (by decide) " 2, é".toList⟩
  exact (hbytes ⟨"ADD", 6⟩ (by rw [htokens]; decide)).2

end TokenSale.Assembly
