import JsxToJinja.Code.Comment

/-! Texts without their comments. What removal does with one character depends on the mode and on
that character and the next, so each law below is a law of one step carried along the text. Putting
the characters on both sides of a comment together starts no new comment and no new literal. -/
namespace JsxToJinja.Code
open JsxToJinja.Text

namespace CommentMode

/-- The first character of a text is copied. -/
def copies : CommentMode → List Char → Bool
  | _, [] => false
  | .escaped _, _ :: _ => true
  | .quoted _, _ :: _ => true
  | .code, c :: t => !startsWith (c :: t) ['/', '/'] && !startsWith (c :: t) ['/', '*']
  | .line, c :: _ => c == '\n'
  | .block, c :: _ => c == '\n'
  | .opening, _ :: _ => false
  | .closing, _ :: _ => false

/-- The mode behind the first character of a text. -/
def next : CommentMode → List Char → CommentMode
  | m, [] => m
  | .escaped q, _ :: _ => .quoted q
  | .quoted q, c :: _ => if c == '\\' then .escaped q else if c == q then .code else .quoted q
  | .code, c :: t =>
    if isQuote c then .quoted c
    else if startsWith (c :: t) ['/', '/'] then .line
    else if startsWith (c :: t) ['/', '*'] then .opening
    else .code
  | .line, c :: _ => if c == '\n' then .code else .line
  | .opening, _ :: _ => .block
  | .block, c :: t => if startsWith (c :: t) ['*', '/'] then .closing else .block
  | .closing, _ :: _ => .code

/-- The mode in which the text without its comments is read at the same place. -/
def visible : CommentMode → CommentMode
  | .quoted q => .quoted q
  | .escaped q => .escaped q
  | _ => .code

/-- The mode has come up by its own rule: the star or the slash that it waits for is there. -/
def Awaits : CommentMode → List Char → Prop
  | .opening, t => t.head? = some '*'
  | .closing, t => t.head? = some '/'
  | _, _ => True

end CommentMode

open CommentMode

private theorem startsWith_cons {c d : Char} {t s : List Char} :
    startsWith (c :: t) (d :: s) = (d == c && startsWith t s) := rfl

private theorem startsWith_single {t : List Char} {d : Char} :
    startsWith t [d] = true ↔ t.head? = some d := by
  cases t with
  | nil => simp [startsWith]
  | cons c t =>
    have hempty : startsWith t [] = true := by simp [startsWith]
    rw [startsWith_cons, hempty, Bool.and_true, beq_iff_eq, List.head?_cons, Option.some.injEq]
    exact eq_comm

private theorem startsWith_of_isQuote {c : Char} (h : isQuote c = true) (t s : List Char) :
    startsWith (c :: t) ('/' :: s) = false := by
  have hne : ('/' == c) = false := by
    rw [beq_eq_false_iff_ne]
    rintro rfl
    exact absurd h (by decide)
  rw [startsWith_cons, hne, Bool.false_and]

/-- One character of removal: copied or not, and the mode behind it. -/
theorem stripCommentsFrom_cons (m : CommentMode) (c : Char) (t : List Char) :
    stripCommentsFrom m (c :: t) =
      (if m.copies (c :: t) then [c] else []) ++ stripCommentsFrom (m.next (c :: t)) t := by
  cases m with
  | code =>
    rw [stripCommentsFrom]
    by_cases hq : isQuote c = true
    · simp [copies, next, hq, startsWith_of_isQuote hq]
    · by_cases hline : startsWith (c :: t) ['/', '/'] = true
      · simp [copies, next, hq, hline]
      · by_cases hblock : startsWith (c :: t) ['/', '*'] = true
        · simp [copies, next, hq, hline, hblock]
        · simp [copies, next, hq, hline, hblock]
  | quoted q =>
    rw [stripCommentsFrom]
    simp only [copies, next, if_true, List.singleton_append]
    split
    · rfl
    · split <;> rfl
  | escaped q => rfl
  | line =>
    rw [stripCommentsFrom]
    by_cases hc : c = '\n' <;> simp [copies, next, hc]
  | opening => rfl
  | block =>
    rw [stripCommentsFrom]
    by_cases hclose : startsWith (c :: t) ['*', '/'] = true
    · have hc : c ≠ '\n' := by
        rintro rfl
        rw [startsWith_cons] at hclose
        simp at hclose
      simp [copies, next, hclose, hc]
    · rw [if_neg hclose, next, if_neg hclose]
      by_cases hc : c = '\n' <;> simp [copies, hc]
  | closing => rfl

/-! ### One step -/

namespace CommentMode
variable {m : CommentMode} {c : Char} {t : List Char}

theorem Awaits.next (h : m.Awaits (c :: t)) : (m.next (c :: t)).Awaits t := by
  cases m with
  | code =>
    rw [CommentMode.next]
    split
    · trivial
    · split
      · trivial
      · split
        · rename_i hblock
          rw [startsWith_cons, Bool.and_eq_true, startsWith_single] at hblock
          exact hblock.2
        · trivial
  | quoted q =>
    rw [CommentMode.next]
    split
    · trivial
    · split <;> trivial
  | escaped q => trivial
  | line =>
    rw [CommentMode.next]
    split <;> trivial
  | opening => trivial
  | block =>
    rw [CommentMode.next]
    split
    · rename_i hclose
      rw [startsWith_cons, Bool.and_eq_true, startsWith_single] at hclose
      exact hclose.2
    · trivial
  | closing => trivial

/-- No line break is lost. -/
theorem Awaits.copies_newline (h : m.Awaits ('\n' :: t)) : m.copies ('\n' :: t) = true := by
  cases m with
  | code => simp [copies, startsWith_cons]
  | quoted q => rfl
  | escaped q => rfl
  | line => rfl
  | opening => exact absurd h (by simp [Awaits])
  | block => rfl
  | closing => exact absurd h (by simp [Awaits])

/-- A character that is left out changes nothing for the text without comments. -/
theorem visible_next_of_skipped (h : m.copies (c :: t) = false) :
    (m.next (c :: t)).visible = m.visible := by
  cases m with
  | code =>
    rw [next]
    split
    · rename_i hq
      simp [copies, startsWith_of_isQuote hq] at h
    · split
      · rfl
      · split <;> rfl
  | quoted q => cases h
  | escaped q => cases h
  | line =>
    rw [next]
    split <;> rfl
  | opening => rfl
  | block =>
    rw [next]
    split <;> rfl
  | closing => rfl

end CommentMode

/-! ### Nothing left to remove -/

private theorem head?_stripped {t : List Char} (h : t.head? ≠ some '/') :
    (stripCommentsFrom .code t).head? = t.head? := by
  cases t with
  | nil => rfl
  | cons c t =>
    have hc : ('/' == c) = false := by
      rw [beq_eq_false_iff_ne]
      rintro rfl
      exact h rfl
    simp [stripCommentsFrom_cons, copies, startsWith_cons, hc]

private theorem copies_stripped {c : Char} {t : List Char}
    (h : CommentMode.code.copies (c :: t) = true) :
    CommentMode.code.copies (c :: stripCommentsFrom .code t) = true := by
  by_cases hc : c = '/'
  · subst hc
    simp only [copies, startsWith_cons, beq_self_eq_true, Bool.true_and, Bool.and_eq_true,
      Bool.not_eq_true', ← Bool.not_eq_true, startsWith_single] at h ⊢
    rw [head?_stripped h.1]
    exact h
  · have hne : ('/' == c) = false := by
      rw [beq_eq_false_iff_ne]
      exact Ne.symm hc
    simp [copies, startsWith_cons, hne]

private theorem next_code {c : Char} {t : List Char} (h : CommentMode.code.copies (c :: t) = true) :
    CommentMode.code.next (c :: t) = if isQuote c then .quoted c else .code := by
  simp only [copies, Bool.and_eq_true, Bool.not_eq_true'] at h
  simp [next, h.1, h.2]

/-- What is copied is copied again, and both readings go on in the same mode. -/
theorem CommentMode.again {m : CommentMode} {c : Char} {t : List Char}
    (h : m.copies (c :: t) = true) :
    m.visible.copies (c :: stripCommentsFrom (m.next (c :: t)) t) = true ∧
      m.visible.next (c :: stripCommentsFrom (m.next (c :: t)) t) = (m.next (c :: t)).visible := by
  have hbreak {u : List Char} : CommentMode.code.copies ('\n' :: u) = true ∧
      CommentMode.code.next ('\n' :: u) = .code := by
    simp [copies, next, startsWith_cons, isQuote]
  cases m with
  | code =>
    rw [next_code h]
    by_cases hq : isQuote c = true
    · have hcopy : CommentMode.code.copies (c :: stripCommentsFrom (.quoted c) t) = true := by
        simp [copies, startsWith_of_isQuote hq]
      rw [if_pos hq]
      exact ⟨hcopy, (next_code hcopy).trans (if_pos hq)⟩
    · have hcopy := copies_stripped h
      rw [if_neg hq]
      exact ⟨hcopy, (next_code hcopy).trans (if_neg hq)⟩
  | quoted q =>
    refine ⟨rfl, ?_⟩
    simp only [visible, next]
    split
    · rfl
    · split <;> rfl
  | escaped q => exact ⟨rfl, rfl⟩
  | line =>
    have hc : c = '\n' := by simpa [copies] using h
    subst hc
    exact hbreak
  | opening => cases h
  | block =>
    have hc : c = '\n' := by simpa [copies] using h
    subst hc
    refine ⟨hbreak.1, hbreak.2.trans ?_⟩
    rw [next]
    split <;> rfl
  | closing => cases h

/-- Removal of comments does nothing to what it has left, in the mode of that text. -/
theorem stripCommentsFrom_again (m : CommentMode) (t : List Char) :
    stripCommentsFrom m.visible (stripCommentsFrom m t) = stripCommentsFrom m t := by
  induction t generalizing m with
  | nil =>
    cases m <;> rfl
  | cons c t ih =>
    rw [stripCommentsFrom_cons m c t]
    cases hc : m.copies (c :: t) with
    | true =>
      obtain ⟨hcopies, hnext⟩ := again hc
      simp only [if_true, List.singleton_append]
      rw [stripCommentsFrom_cons, hcopies, hnext, ih]
      rfl
    | false =>
      have hmode := visible_next_of_skipped hc
      simp only [Bool.false_eq_true, if_false, List.nil_append]
      rw [← hmode, ih]

/-! ### Lines -/

theorem count_newline_stripCommentsFrom {m : CommentMode} {t : List Char} (h : m.Awaits t) :
    (stripCommentsFrom m t).count '\n' = t.count '\n' := by
  induction t generalizing m with
  | nil =>
    cases m <;> rfl
  | cons c t ih =>
    rw [stripCommentsFrom_cons, List.count_append, ih h.next, List.count_cons]
    by_cases hc : c = '\n'
    · subst hc
      rw [h.copies_newline]
      simp [Nat.add_comm]
    · cases m.copies (c :: t) <;> simp [hc]

/-- Positions of the characters that are copied from a mode on, the first character standing at
position `i`. -/
def keptFrom : CommentMode → Nat → List Char → List Nat
  | _, _, [] => []
  | m, i, c :: t =>
    if m.copies (c :: t) then i :: keptFrom (m.next (c :: t)) (i + 1) t
    else keptFrom (m.next (c :: t)) (i + 1) t

def keptPositions (t : List Char) : List Nat := keptFrom .code 0 t

private theorem le_of_mem_keptFrom {m : CommentMode} {i k : Nat} {t : List Char}
    (h : k ∈ keptFrom m i t) : i ≤ k := by
  induction t generalizing m i with
  | nil => cases h
  | cons c t ih =>
    rw [keptFrom] at h
    split at h
    · rcases List.mem_cons.1 h with rfl | h
      · exact Nat.le_refl k
      · exact Nat.le_of_succ_le (ih h)
    · exact Nat.le_of_succ_le (ih h)

theorem pairwise_keptFrom (m : CommentMode) (i : Nat) (t : List Char) :
    (keptFrom m i t).Pairwise (· < ·) := by
  induction t generalizing m i with
  | nil => exact .nil
  | cons c t ih =>
    rw [keptFrom]
    split
    · exact .cons (fun k hk => le_of_mem_keptFrom hk) (ih _ _)
    · exact ih _ _

/-- The characters at the kept positions are the text that is left. Of the text, `u` is read. -/
theorem map_getElem?_keptFrom (m : CommentMode) (u t : List Char) :
    (keptFrom m u.length t).map ((u ++ t)[·]?) = (stripCommentsFrom m t).map some := by
  induction t generalizing m u with
  | nil =>
    cases m <;> rfl
  | cons c t ih =>
    have hrest := ih (m.next (c :: t)) (u ++ [c])
    simp only [List.length_append, List.length_singleton, List.append_assoc,
      List.singleton_append] at hrest
    rw [keptFrom, stripCommentsFrom_cons]
    split
    · rw [List.map_cons, hrest]
      simp
    · rw [hrest, List.nil_append]

/-- Behind fronts with equally many line breaks, each kept character has as many line breaks before
it as in the text that is left. -/
theorem map_count_keptFrom {m : CommentMode} {u v t : List Char} (hm : m.Awaits t)
    (hfront : v.count '\n' = u.count '\n') :
    (keptFrom m u.length t).map (fun i => ((u ++ t).take i).count '\n') =
      (List.range' v.length (stripCommentsFrom m t).length).map fun k =>
        ((v ++ stripCommentsFrom m t).take k).count '\n' := by
  induction t generalizing m u v with
  | nil =>
    cases m <;> rfl
  | cons c t ih =>
    rw [keptFrom, stripCommentsFrom_cons]
    cases hc : m.copies (c :: t) with
    | true =>
      have hrest := ih (u := u ++ [c]) (v := v ++ [c]) hm.next (by simp [hfront])
      simp only [List.length_append, List.length_singleton, List.append_assoc,
        List.singleton_append] at hrest
      simp only [if_true, List.map_cons, List.singleton_append, List.length_cons,
        List.range'_succ, hrest]
      simp [hfront]
    | false =>
      have hne : c ≠ '\n' := by
        rintro rfl
        simp [hm.copies_newline] at hc
      have hrest := ih (u := u ++ [c]) (v := v) hm.next (by simp [hfront, hne])
      simp only [List.length_append, List.length_singleton, List.append_assoc,
        List.singleton_append] at hrest
      simpa using hrest

/-- The line of a character by its byte offset is the line of its position. -/
theorem lineAtByte_byteOffset (t : List Char) (i : Nat) :
    lineAtByte t (byteOffset t i) = lineOf t i := by
  induction t generalizing i with
  | nil => cases i <;> rfl
  | cons c t ih =>
    cases i with
    | zero => rfl
    | succ i =>
      have hpos : 0 < c.utf8Size := Char.utf8Size_pos c
      have hoffset : byteOffset (c :: t) (i + 1) = c.utf8Size + byteOffset t i := rfl
      rw [hoffset, lineAtByte, if_neg (by omega), Nat.add_sub_cancel_left, ih]
      simp only [lineOf, List.take_succ_cons, List.count_cons]
      split <;> omega

def lineAt (t : List Char) (i : Nat) : Nat := lineAtByte t (byteOffset t i)

/-- Removing comments a second time changes nothing. The positions that are kept, in order, hold the
text that is left, every line break is among them, and each kept character stays on its line. -/
theorem stripComments_keeps_lines (t : List Char) :
    stripComments (stripComments t) = stripComments t ∧
      (stripComments t).count '\n' = t.count '\n' ∧
      (keptPositions t).Pairwise (· < ·) ∧
      (keptPositions t).map (t[·]?) = (stripComments t).map some ∧
      (keptPositions t).map (lineAt t) =
        (List.range (stripComments t).length).map (lineAt (stripComments t)) := by
  have hlines := map_count_keptFrom (m := .code) (u := []) (v := []) (t := t) trivial rfl
  refine ⟨stripCommentsFrom_again .code t, count_newline_stripCommentsFrom trivial,
    pairwise_keptFrom .code 0 t, map_getElem?_keptFrom .code [] t, ?_⟩
  have hadd := congrArg (List.map (· + 1)) hlines
  simp only [List.map_map, List.length_nil, List.nil_append, ← List.range_eq_range'] at hadd
  have hline (s : List Char) : lineAt s = (· + 1) ∘ fun i => (s.take i).count '\n' := by
    funext i
    exact lineAtByte_byteOffset s i
  rw [hline, hline]
  exact hadd

end JsxToJinja.Code
