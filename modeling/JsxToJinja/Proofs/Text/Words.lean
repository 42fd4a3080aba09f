import JsxToJinja.Text.Blank

/-! The words of a text are not empty and hold no blanks, so they are their own words. -/
namespace JsxToJinja.Text

/-- Not empty and without blanks. -/
structure IsToken (w : List Char) : Prop where
  ne_nil : w ≠ []
  no_blank : ∀ c ∈ w, isBlank c = false

private theorem isToken_of_mem_wordsFrom {word t w : List Char}
    (hword : ∀ c ∈ word, isBlank c = false) (h : w ∈ wordsFrom word t) : IsToken w := by
  have hrev (hne : ¬ word.isEmpty = true) : IsToken word.reverse :=
    ⟨by simpa using hne, fun c hc => hword c (List.mem_reverse.1 hc)⟩
  induction t generalizing word with
  | nil =>
    rw [wordsFrom] at h
    split at h
    · cases h
    · rename_i hne
      rw [List.mem_singleton.1 h]
      exact hrev hne
  | cons c t ih =>
    rw [wordsFrom] at h
    split at h
    · split at h
      · exact ih (by simp) h (by simp)
      · rename_i hne
        rcases List.mem_cons.1 h with rfl | h
        · exact hrev hne
        · exact ih (by simp) h (by simp)
    · rename_i hc
      have hnext : ∀ d ∈ c :: word, isBlank d = false := by
        intro d hd
        rcases List.mem_cons.1 hd with rfl | hd
        · simpa using hc
        · exact hword d hd
      exact ih hnext h fun _ => ⟨by simp, fun d hd => hnext d (List.mem_reverse.1 hd)⟩

theorem isToken_of_mem_words {w t : List Char} (h : w ∈ words t) : IsToken w :=
  isToken_of_mem_wordsFrom (by simp) h

private theorem wordsFrom_append {t : List Char} (word rest : List Char)
    (h : ∀ c ∈ t, isBlank c = false) :
    wordsFrom word (t ++ rest) = wordsFrom (t.reverse ++ word) rest := by
  induction t generalizing word with
  | nil => rfl
  | cons c t ih =>
    rw [List.cons_append, wordsFrom, if_neg (by simp [h c (by simp)]),
      ih _ fun d hd => h d (by simp [hd])]
    simp

theorem IsToken.words_eq {w : List Char} (h : IsToken w) : words w = [w] := by
  have hword := wordsFrom_append [] [] h.no_blank
  rw [List.append_nil] at hword
  rw [words, hword, wordsFrom, if_neg (by simpa using h.ne_nil)]
  simp

/-- Words with a space between them are read one by one. -/
theorem words_intercalate {ws : List (List Char)} (h : ∀ w ∈ ws, IsToken w) :
    words ([' '].intercalate ws) = ws := by
  induction ws with
  | nil => rfl
  | cons w ws ih =>
    obtain ⟨hw, hws⟩ := List.forall_mem_cons.1 h
    cases ws with
    | nil => rw [List.intercalate_singleton, hw.words_eq]
    | cons w' ws =>
      have hrest := ih hws
      rw [words] at hrest
      rw [List.intercalate_cons_cons, List.append_assoc, words, wordsFrom_append [] _ hw.no_blank,
        List.singleton_append, wordsFrom, if_pos (by decide), if_neg (by simpa using hw.ne_nil), hrest]
      simp

theorem collapse_collapse (t : List Char) : collapse (collapse t) = collapse t := by
  rw [collapse, collapse, words_intercalate fun w hw => isToken_of_mem_words hw]

theorem isToken_of_mem_tokens {s c : String} (h : c ∈ tokens s) : IsToken c.toList := by
  obtain ⟨w, hw, rfl⟩ := List.mem_map.1 h
  simpa using isToken_of_mem_words hw

theorem tokens_of_isToken {c : String} (h : IsToken c.toList) : tokens c = [c] := by
  simp [tokens, h.words_eq]

theorem ne_empty_of_mem_tokens {s c : String} (h : c ∈ tokens s) : c ≠ "" := by
  rintro rfl
  exact (isToken_of_mem_tokens h).ne_nil rfl

end JsxToJinja.Text
