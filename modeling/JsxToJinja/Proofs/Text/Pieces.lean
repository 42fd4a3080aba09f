import JsxToJinja.Proofs.Text.Trimmed

/-! Searches for a text: a front without its first character is passed over, and belongs to the first
of the pieces between separators. -/
namespace JsxToJinja.Text

theorem find?_plain {o : Char} {w : List Char} (h : o ∉ w) (os rest : List Char) :
    find? (o :: os) (w ++ rest) = (find? (o :: os) rest).map (w.length + ·) := by
  induction w with
  | nil => simp
  | cons c w ih =>
    simp only [List.mem_cons, not_or] at h
    have hs : startsWith (c :: (w ++ rest)) (o :: os) = false :=
      startsWith_of_head (by simpa using Ne.symm h.1) os
    rw [List.cons_append, find?, if_neg (ne_true_of_eq_false hs), ih h.2, Option.map_map]
    congr 1
    funext n
    simp only [Function.comp_apply, List.length_cons]
    omega

theorem find?_of_notMem {o : Char} {w : List Char} (h : o ∉ w) (rest : List Char) :
    find? [o] (w ++ o :: rest) = some w.length := by
  have hstart : startsWith (o :: rest) [o] = true := startsWith_append_self [o] rest
  rw [find?_plain h, find?, if_pos hstart]
  rfl

theorem drop_find? {c : Char} {t : List Char} {i : Nat} (h : find? [c] t = some i) :
    t.drop i = c :: t.drop (i + 1) := by
  induction t generalizing i with
  | nil => cases h
  | cons x t ih =>
    simp only [find?] at h
    split at h
    · rename_i hx
      cases h
      have hc : c = x := by simpa [startsWith] using hx
      rw [hc, List.drop_zero, List.drop_succ_cons, List.drop_zero]
    · obtain ⟨j, hj, rfl⟩ := Option.map_eq_some_iff.1 h
      rw [List.drop_succ_cons, List.drop_succ_cons]
      exact ih hj

theorem lt_length_of_find? {c : Char} {t : List Char} {i : Nat} (h : find? [c] t = some i) :
    i < t.length := by
  refine Nat.lt_of_not_le fun hle => ?_
  have hdrop := drop_find? h
  rw [List.drop_eq_nil_of_le hle] at hdrop
  cases hdrop

private theorem piecesFrom_read (sep t : List Char) (skip : Nat) :
    ∃ p ps, ∀ piece, piecesFrom sep skip piece t = (piece.reverse ++ p) :: ps := by
  induction t generalizing skip with
  | nil => exact ⟨[], [], fun piece => by cases skip <;> simp [piecesFrom]⟩
  | cons c t ih =>
    cases skip with
    | succ skip => exact ih skip
    | zero =>
      by_cases hs : startsWith (c :: t) sep = true
      · exact ⟨[], piecesFrom sep (sep.length - 1) [] t, fun piece => by
          rw [piecesFrom, if_pos hs, List.append_nil]⟩
      · obtain ⟨p, ps, h⟩ := ih 0
        exact ⟨c :: p, ps, fun piece => by rw [piecesFrom, if_neg hs, h]; simp⟩

private theorem piecesFrom_plain {o : Char} {w : List Char} (h : o ∉ w) (os piece rest : List Char) :
    piecesFrom (o :: os) 0 piece (w ++ rest) = piecesFrom (o :: os) 0 (w.reverse ++ piece) rest := by
  induction w generalizing piece with
  | nil => rfl
  | cons c w ih =>
    simp only [List.mem_cons, not_or] at h
    have hs : startsWith (c :: (w ++ rest)) (o :: os) = false :=
      startsWith_of_head (by simpa using Ne.symm h.1) os
    rw [List.cons_append, piecesFrom, if_neg (ne_true_of_eq_false hs), ih h.2]
    simp

theorem splitOn_plain {o : Char} {w : List Char} (h : o ∉ w) (os : List Char) :
    splitOn (o :: os) w = [w] := by
  have := piecesFrom_plain h os [] []
  simpa [splitOn, piecesFrom] using this

theorem splitOn_char {o : Char} {w : List Char} (h : o ∉ w) (rest : List Char) :
    splitOn [o] (w ++ o :: rest) = w :: splitOn [o] rest := by
  have hstart : startsWith (o :: rest) [o] = true := startsWith_append_self [o] rest
  rw [splitOn, piecesFrom_plain h, piecesFrom, if_pos hstart]
  simp [splitOn]

private theorem piecesFrom_char (o c : Char) (piece t : List Char) :
    piecesFrom [o] 0 piece (c :: t) =
      if c = o then piece.reverse :: piecesFrom [o] 0 [] t else piecesFrom [o] 0 (c :: piece) t := by
  by_cases h : c = o
  · subst h
    have hs : startsWith (c :: t) [c] = true := startsWith_append_self [c] t
    rw [piecesFrom, if_pos hs, if_pos rfl]
    rfl
  · have hs : startsWith (c :: t) [o] = false := startsWith_of_head (by simpa using h) []
    rw [piecesFrom, if_neg (ne_true_of_eq_false hs), if_neg h]

private theorem piecesFrom_append_char (o : Char) (piece w rest : List Char) :
    piecesFrom [o] 0 piece (w ++ o :: rest) =
      piecesFrom [o] 0 piece w ++ piecesFrom [o] 0 [] rest := by
  induction w generalizing piece with
  | nil =>
    rw [List.nil_append, piecesFrom_char, if_pos rfl]
    rfl
  | cons c w ih =>
    rw [List.cons_append, piecesFrom_char, piecesFrom_char]
    split
    · rw [ih, List.cons_append]
    · exact ih _

/-- A separator stands between the pieces before it and those after it. -/
theorem splitOn_append_char (o : Char) (w rest : List Char) :
    splitOn [o] (w ++ o :: rest) = splitOn [o] w ++ splitOn [o] rest :=
  piecesFrom_append_char o [] w rest

private theorem intercalate_piecesFrom (o : Char) (piece t : List Char) :
    [o].intercalate (piecesFrom [o] 0 piece t) = piece.reverse ++ t := by
  induction t generalizing piece with
  | nil => simp [piecesFrom]
  | cons c t ih =>
    rw [piecesFrom_char]
    split
    · rename_i hc
      obtain ⟨p, ps, hp⟩ := piecesFrom_read [o] t 0
      have hrest := ih []
      rw [hp] at hrest ⊢
      rw [List.intercalate_cons_cons, hrest, hc]
      simp
    · rw [ih]
      simp

/-- The pieces with the separators between them are the text. -/
theorem intercalate_splitOn (o : Char) (t : List Char) : [o].intercalate (splitOn [o] t) = t :=
  intercalate_piecesFrom o [] t

private theorem notMem_of_mem_piecesFrom {o : Char} {p piece t : List Char}
    (h : p ∈ piecesFrom [o] 0 piece t) (hpiece : o ∉ piece) : o ∉ p := by
  induction t generalizing piece with
  | nil =>
    rw [piecesFrom, List.mem_singleton] at h
    rwa [h, List.mem_reverse]
  | cons c t ih =>
    rw [piecesFrom_char] at h
    split at h
    · rcases List.mem_cons.1 h with rfl | h
      · rwa [List.mem_reverse]
      · exact ih h List.not_mem_nil
    · rename_i hc
      exact ih h (by simpa [Ne.symm hc] using hpiece)

theorem notMem_of_mem_splitOn {o : Char} {p t : List Char} (h : p ∈ splitOn [o] t) : o ∉ p :=
  notMem_of_mem_piecesFrom h List.not_mem_nil

/-- Texts that are joined by a character none of them holds come apart again. -/
theorem splitOn_intercalate {o : Char} {ps : List (List Char)} (hne : ps ≠ [])
    (h : ∀ p ∈ ps, o ∉ p) : splitOn [o] ([o].intercalate ps) = ps := by
  induction ps with
  | nil => exact absurd rfl hne
  | cons p ps ih =>
    have hp := h p List.mem_cons_self
    cases ps with
    | nil => simpa using splitOn_plain hp []
    | cons q ps =>
      rw [List.intercalate_cons_cons, List.append_assoc, List.singleton_append, splitOn_char hp,
        ih (List.cons_ne_nil _ _) fun r hr => h r (List.mem_cons_of_mem _ hr)]

theorem replaceAll_plain {o : Char} {w : List Char} (h : o ∉ w) (os new rest : List Char) :
    replaceAll (o :: os) new (w ++ rest) = w ++ replaceAll (o :: os) new rest := by
  obtain ⟨p, ps, hp⟩ := piecesFrom_read (o :: os) rest 0
  have hfront : new.intercalate ((w ++ p) :: ps) = w ++ new.intercalate (p :: ps) := by
    cases ps <;> simp [List.intercalate]
  rw [replaceAll, replaceAll, splitOn, splitOn, piecesFrom_plain h, hp, hp]
  simpa using hfront

theorem replaceAll_hit (o : Char) (os new rest : List Char) :
    replaceAll (o :: os) new (o :: (os ++ rest)) = new ++ replaceAll (o :: os) new rest := by
  have hskip : piecesFrom (o :: os) os.length [] (os ++ rest) = piecesFrom (o :: os) 0 [] rest := by
    generalize o :: os = sep
    induction os with
    | nil => rfl
    | cons c os ih => exact ih
  obtain ⟨p, ps, hp⟩ := piecesFrom_read (o :: os) rest 0
  have hstart : startsWith (o :: (os ++ rest)) (o :: os) = true := startsWith_append_self (o :: os) rest
  rw [replaceAll, replaceAll, splitOn, splitOn, piecesFrom, if_pos hstart]
  have hlen : (o :: os).length - 1 = os.length := rfl
  rw [hlen, hskip, hp]
  simp [List.intercalate]

theorem replaceAll_miss {old : List Char} {c : Char} {rest : List Char}
    (h : startsWith (c :: rest) old = false) (new : List Char) :
    replaceAll old new (c :: rest) = c :: replaceAll old new rest := by
  obtain ⟨p, ps, hp⟩ := piecesFrom_read old rest 0
  have hfront : new.intercalate ((c :: p) :: ps) = c :: new.intercalate (p :: ps) := by
    cases ps <;> simp [List.intercalate]
  rw [replaceAll, replaceAll, splitOn, splitOn, piecesFrom, if_neg (ne_true_of_eq_false h), hp, hp]
  simp [hfront]

private theorem mem_piecesFrom {sep : List Char} (hne : sep ≠ []) {c : Char} (hc : c ∉ sep)
    {skip : Nat} {piece t : List Char} (hskip : ∀ d ∈ t.take skip, d ∈ sep)
    (h : c ∈ piece ∨ c ∈ t) : ∃ p ∈ piecesFrom sep skip piece t, c ∈ p := by
  induction t generalizing skip piece with
  | nil => exact ⟨piece.reverse, by cases skip <;> simp [piecesFrom], by simpa using h⟩
  | cons d t ih =>
    have hlater (hd : c ≠ d) : c ∈ piece ∨ c ∈ t := h.imp_right fun hm => (List.mem_cons.1 hm).resolve_left hd
    cases skip with
    | succ skip =>
      have hd : c ≠ d := fun hd => hc (hd ▸ hskip d List.mem_cons_self)
      exact ih (fun e he => hskip e (List.mem_cons_of_mem _ he)) (hlater hd)
    | zero =>
      rw [piecesFrom]
      split
      · rename_i hs
        rw [startsWith, List.isPrefixOf_iff_prefix] at hs
        obtain ⟨r, hr⟩ := hs
        obtain ⟨s, ss, rfl⟩ := List.exists_cons_of_ne_nil hne
        obtain ⟨rfl, rfl⟩ := List.cons.inj hr
        have hd : c ≠ s := fun hd => hc (hd ▸ List.mem_cons_self)
        have hpieces (hm : c ∈ ss ++ r) : ∃ p ∈ piecesFrom (s :: ss) ss.length [] (ss ++ r), c ∈ p :=
          ih (fun e he => List.mem_cons_of_mem _ (by simpa using he)) (.inr hm)
        rcases hlater hd with hm | hm
        · exact ⟨piece.reverse, List.mem_cons_self, List.mem_reverse.2 hm⟩
        · obtain ⟨p, hp, hin⟩ := hpieces hm
          exact ⟨p, List.mem_cons_of_mem _ hp, hin⟩
      · refine ih (by simp) ?_
        rcases h with hm | hm
        · exact .inl (List.mem_cons_of_mem _ hm)
        · exact (List.mem_cons.1 hm).imp_left fun (hd : c = d) => List.mem_cons.2 (.inl hd)

/-- What is no character of the separator is in a piece. -/
theorem mem_splitOn {sep t : List Char} (hne : sep ≠ []) {c : Char} (hc : c ∉ sep) (h : c ∈ t) :
    ∃ p ∈ splitOn sep t, c ∈ p :=
  mem_piecesFrom hne hc (by simp) (.inr h)

/-- Replacing a text keeps what is no character of it. -/
theorem mem_replaceAll {old new t : List Char} (hne : old ≠ []) {c : Char} (hc : c ∉ old) (h : c ∈ t) :
    c ∈ replaceAll old new t := by
  obtain ⟨p, hp, hin⟩ := mem_splitOn hne hc h
  rw [replaceAll]
  generalize splitOn old t = ps at hp
  induction ps with
  | nil => cases hp
  | cons q ps ih =>
    cases ps with
    | nil => rwa [List.intercalate_singleton, ← List.mem_singleton.1 hp]
    | cons r ps =>
      rw [List.intercalate_cons_cons, List.append_assoc, List.mem_append, List.mem_append]
      rcases List.mem_cons.1 hp with rfl | hp
      · exact .inl hin
      · exact .inr (.inr (ih hp))
end JsxToJinja.Text
