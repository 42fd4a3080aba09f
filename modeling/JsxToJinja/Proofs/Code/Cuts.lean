import JsxToJinja.Proofs.Code.Sealed

/-! Searches, cuts and brackets in texts put together from sealed pieces. -/
namespace JsxToJinja.Code
open JsxToJinja.Text

/-- A character that sealed text can keep out: it is met as itself and never inside a chain. -/
structure Cutting (avoid : List Char) (c : Char) : Prop where
  mem : c ∈ avoid
  ordinary : isOrdinary c = true
  noLink : c ≠ '?'

/-- Marks inside a text that avoids a character start no separator that begins with it. -/
theorem Mark.Inside.not_starts {avoid : List Char} {lo hi : Nat} {m : Mark} {c : Char}
    (h : m.Inside avoid 0 lo hi) (hc : Cutting avoid c) (n : List Char) :
    m.starts (c :: n) = false := by
  obtain ⟨t, ht⟩ := h.rest
  by_cases hm : m.char = c
  · by_cases hd : m.depth = 0
    · obtain ⟨s, hs⟩ := h.harmless hd (hm ▸ hc.mem) (hm ▸ hc.ordinary)
      rw [hs, hm, List.cons.injEq] at ht
      exact absurd ht.1.symm hc.noLink
    · simp [Mark.starts, hd]
  · simp [Mark.starts, startsWith, ht, List.isPrefixOf, Ne.symm hm]

theorem isQuote_eq_false {c : Char} (h : isOrdinary c = true) : isQuote c = false := by
  simp only [isOrdinary, Bool.and_eq_true, Bool.not_eq_true'] at h
  exact h.1.1

theorem starts_at {c : Char} (ho : isOrdinary c = true) (i : Nat) (n rest : List Char) :
    Mark.starts ⟨i, c, 0, c :: (n ++ rest)⟩ (c :: n) = true := by
  have hs := startsWith_append_self (c :: n) rest
  simp only [List.cons_append] at hs
  simp [Mark.starts, isQuote_eq_false ho, hs]

/-- What a text avoids is not found in it outside brackets and literals. -/
theorem Sealed.findTopLevel?_eq_none {avoid w : List Char} {c : Char} (h : Sealed avoid w)
    (hc : Cutting avoid c) (n : List Char) : findTopLevel? w (c :: n) = none := by
  obtain ⟨ms, he, hm⟩ := h.marksFrom_append 0 0 []
  have hmarks : marks w = ms := by simpa [marks, marksFrom] using he
  have hnone : ms.find? (·.starts (c :: n)) = none := by
    rw [List.find?_eq_none]
    intro m hmem
    simp [(hm m hmem).not_starts hc n]
  simp [findTopLevel?, hmarks, hnone]

/-- What a text avoids is not found in it from the end, either. -/
theorem Sealed.findLastTopLevel?_eq_none {avoid w : List Char} {c : Char} (h : Sealed avoid w)
    (hc : Cutting avoid c) (n : List Char) : findLastTopLevel? w (c :: n) = none := by
  obtain ⟨ms, he, hm⟩ := h.marksFrom_append 0 0 []
  have hmarks : marks w = ms := by simpa [marks, marksFrom] using he
  have hnone : ms.reverse.find? (·.starts (c :: n)) = none := by
    rw [List.find?_eq_none]
    intro m hmem
    simp [(hm m (List.mem_reverse.1 hmem)).not_starts hc n]
  simp [findLastTopLevel?, hmarks, hnone]

/-- The first occurrence after a sealed text that keeps the needle out is right behind it. -/
theorem Sealed.findTopLevel?_append {avoid w : List Char} {c : Char} (h : Sealed avoid w)
    (hc : Cutting avoid c) (n rest : List Char) :
    findTopLevel? (w ++ c :: (n ++ rest)) (c :: n) = some w.length := by
  obtain ⟨ms, he, hm⟩ := h.marksFrom_append 0 0 (c :: (n ++ rest))
  rw [Nat.zero_add, marksFrom_ordinary hc.ordinary] at he
  have hnone : ms.find? (·.starts (c :: n)) = none := by
    rw [List.find?_eq_none]
    intro m hmem
    simp [(hm m hmem).not_starts hc n]
  rw [findTopLevel?, marks, he, List.find?_append, hnone]
  simp [starts_at hc.ordinary]

theorem Sealed.containsTopLevel_append {avoid w : List Char} {c : Char} (h : Sealed avoid w)
    (hc : Cutting avoid c) (n rest : List Char) :
    containsTopLevel (w ++ c :: (n ++ rest)) (c :: n) = true := by
  rw [containsTopLevel, h.findTopLevel?_append hc]
  rfl

theorem Sealed.containsTopLevel_eq_false {avoid w : List Char} {c : Char} (h : Sealed avoid w)
    (hc : Cutting avoid c) (n : List Char) : containsTopLevel w (c :: n) = false := by
  rw [containsTopLevel, h.findTopLevel?_eq_none hc]
  rfl

/-- A mark is made at the front or further on. -/
theorem mem_marksFrom_cons {mode : Mode} {d i : Nat} {c : Char} {t : List Char} {m : Mark}
    (h : m ∈ marksFrom mode d i (c :: t)) :
    (m.index = i ∧ m.char = c ∧ m.rest = c :: t) ∨
      ∃ mode' d', m ∈ marksFrom mode' d' (i + 1) t := by
  have hcons {k d' : Nat} {mode' : Mode} (h' : m ∈ ⟨i, c, k, c :: t⟩ :: marksFrom mode' d' (i + 1) t) :
      (m.index = i ∧ m.char = c ∧ m.rest = c :: t) ∨
        ∃ mode' d', m ∈ marksFrom mode' d' (i + 1) t := by
    rcases List.mem_cons.1 h' with rfl | h'
    · exact .inl ⟨rfl, rfl, rfl⟩
    · exact .inr ⟨mode', d', h'⟩
  cases mode with
  | escaped q => exact .inr ⟨_, _, h⟩
  | quoted q =>
    rw [marksFrom] at h
    split at h
    · exact .inr ⟨_, _, h⟩
    · split at h
      · exact hcons h
      · exact .inr ⟨_, _, h⟩
  | code =>
    rw [marksFrom] at h
    split at h
    · exact hcons h
    · split at h
      · exact hcons h
      · split at h
        · exact hcons h
        · exact hcons h

theorem index_lt_of_mem_marksFrom {mode : Mode} {d i : Nat} {t : List Char} {m : Mark}
    (h : m ∈ marksFrom mode d i t) : m.index < i + t.length := by
  induction t generalizing mode d i with
  | nil => cases mode <;> cases h
  | cons c t ih =>
    rw [List.length_cons]
    obtain ⟨hi, -⟩ | ⟨mode', d', h⟩ := mem_marksFrom_cons h
    · omega
    · have := ih h
      omega

/-- The text from a mark on starts with its character. -/
theorem head?_of_mem_marksFrom {mode : Mode} {d i : Nat} {t : List Char} {m : Mark}
    (h : m ∈ marksFrom mode d i t) : m.rest.head? = some m.char := by
  induction t generalizing mode d i with
  | nil => cases mode <;> cases h
  | cons c t ih =>
    obtain ⟨-, hc, hr⟩ | ⟨mode', d', h⟩ := mem_marksFrom_cons h
    · rw [hr, hc, List.head?_cons]
    · exact ih h

/-- The text from a mark on is what is left behind its position. -/
theorem rest_of_mem_marksFrom {mode : Mode} {d i : Nat} {t : List Char} {m : Mark}
    (h : m ∈ marksFrom mode d i t) : i ≤ m.index ∧ m.rest = t.drop (m.index - i) := by
  induction t generalizing mode d i with
  | nil => cases mode <;> simp [marksFrom] at h
  | cons c t ih =>
    obtain ⟨hi, -, hr⟩ | ⟨mode', d', h⟩ := mem_marksFrom_cons h
    · simp [hi, hr]
    · obtain ⟨hle, hr⟩ := ih h
      obtain ⟨k, hk⟩ := Nat.exists_eq_add_of_le hle
      refine ⟨by omega, ?_⟩
      rw [hr, hk, Nat.add_sub_cancel_left, Nat.add_assoc, Nat.add_sub_cancel_left, Nat.add_comm 1 k,
        List.drop_succ_cons]

/-- Where something is found it stands. -/
theorem prefix_of_findTopLevel? {t needle : List Char} {i : Nat}
    (h : findTopLevel? t needle = some i) : needle <+: t.drop i := by
  rw [findTopLevel?] at h
  split at h
  · cases h
  · obtain ⟨m, hm, rfl⟩ := Option.map_eq_some_iff.1 h
    have hs := List.find?_some hm
    obtain ⟨-, hr⟩ := rest_of_mem_marksFrom (List.mem_of_find?_eq_some hm)
    simp only [Mark.starts, Bool.and_eq_true, startsWith, List.isPrefixOf_iff_prefix] at hs
    rw [Nat.sub_zero] at hr
    exact hr ▸ hs.2

/-- What holds a character that the text does not hold is not found in it. -/
theorem containsTopLevel_of_notMem {t needle : List Char} {c : Char} (hc : c ∈ needle)
    (ht : c ∉ t) : containsTopLevel t needle = false := by
  have hnone : (marks t).find? (·.starts needle) = none := by
    rw [List.find?_eq_none]
    intro m hm hs
    simp only [Mark.starts, Bool.and_eq_true, startsWith, List.isPrefixOf_iff_prefix] at hs
    rw [(rest_of_mem_marksFrom hm).2] at hs
    exact ht (List.mem_of_mem_drop (hs.2.mem hc))
  have hne : needle.isEmpty = false := by simpa using List.ne_nil_of_mem hc
  simp [containsTopLevel, findTopLevel?, hne, hnone]

/-! ### Cutting at a separator -/

/-- Wherever the text stands, no mark in it starts `n`. -/
def KeepsOut (n w : List Char) : Prop :=
  ∀ (i : Nat) (rest : List Char), ∃ ms,
    marksFrom .code 0 i (w ++ rest) = ms ++ marksFrom .code 0 (i + w.length) rest ∧
      ∀ m ∈ ms, m.starts n = false

theorem Sealed.keepsOut {avoid w : List Char} {c : Char} (h : Sealed avoid w)
    (hc : Cutting avoid c) (n : List Char) : KeepsOut (c :: n) w := by
  intro i rest
  obtain ⟨ms, he, hm⟩ := h.marksFrom_append 0 i rest
  exact ⟨ms, he, fun m hmem => (hm m hmem).not_starts hc n⟩

/-- Marks that start no separator, or lie in front of the piece, make no cut. -/
theorem cutAt_append {t sep : List Char} {ms : List Mark} {start : Nat}
    (h : ∀ m ∈ ms, m.index < start ∨ m.starts sep = false) (ns : List Mark) :
    cutAt t sep (ms ++ ns) start = cutAt t sep ns start := by
  induction ms with
  | nil => rfl
  | cons m ms ih =>
    rw [List.cons_append, cutAt, if_neg, ih fun m hm => h m (by simp [hm])]
    rcases h m (by simp) with hi | hs
    · simp only [Bool.and_eq_true, decide_eq_true_eq, not_and]
      intro hle
      omega
    · simp [hs]

private theorem cutAt_intercalate {n : List Char} {c : Char} (hc : isOrdinary c = true)
    (hn : ∀ d ∈ n, isOrdinary d = true) (pre r : List Char) (rs : List (List Char))
    (h : ∀ p ∈ r :: rs, KeepsOut (c :: n) p) :
    cutAt (pre ++ (c :: n).intercalate (r :: rs)) (c :: n)
      (marksFrom .code 0 pre.length ((c :: n).intercalate (r :: rs))) pre.length = r :: rs := by
  induction rs generalizing pre r with
  | nil =>
    obtain ⟨ms, he, hm⟩ := h r (by simp) pre.length []
    have hcut : cutAt (pre ++ r) (c :: n) (ms ++ []) pre.length = _ :=
      cutAt_append (fun m hmem => .inr (hm m hmem)) []
    simp only [List.append_nil, marksFrom] at he hcut
    simp [List.intercalate, he, hcut, cutAt]
  | cons s rs ih =>
    let tail := (c :: n).intercalate (s :: rs)
    have htext : (c :: n).intercalate (r :: s :: rs) = r ++ c :: (n ++ tail) := by
      simp [List.intercalate, tail]
    have hpre : pre ++ (r ++ c :: (n ++ tail)) = (pre ++ r ++ c :: n) ++ tail := by simp
    have hstart : pre.length + r.length + (c :: n).length = (pre ++ r ++ c :: n).length := by
      simp [Nat.add_assoc]
    obtain ⟨ms, he, hm⟩ := h r (by simp) pre.length (c :: (n ++ tail))
    -- the marks of the separator behind its first character are skipped by position
    have hsep : Sealed [] n := sealed_of_ordinary fun d hd => ⟨by simp, hn d hd⟩
    obtain ⟨ns, hne, hns⟩ := hsep.marksFrom_append 0 (pre.length + r.length + 1) tail
    have hlen : pre.length + r.length + 1 + n.length = (pre ++ r ++ c :: n).length := by
      simp; omega
    rw [htext, he, cutAt_append (fun m hmem => .inr (hm m hmem)),
      marksFrom_ordinary hc, cutAt, if_pos (by simp [starts_at hc])]
    congr 1
    · exact slice_append_left pre r _
    · rw [hne, hstart, cutAt_append, hlen, hpre]
      · exact ih (pre ++ r ++ c :: n) s fun p hp => h p (by simp [hp])
      · intro m hmem
        have := (hns m hmem).upper
        exact .inl (by omega)

/-- Pieces that keep the separator out come back, trimmed and without the empty ones. -/
theorem splitTopLevel_of_keepsOut {n : List Char} {c : Char} (hc : isOrdinary c = true)
    (hn : ∀ d ∈ n, isOrdinary d = true) {rs : List (List Char)} (h : ∀ r ∈ rs, KeepsOut (c :: n) r) :
    splitTopLevel ((c :: n).intercalate rs) (c :: n) = (rs.map trim).filter (!·.isEmpty) := by
  cases rs with
  | nil => simp [splitTopLevel, marks, marksFrom, cutAt, trim, trimStart, trimEnd, List.intercalate]
  | cons r rs =>
    have hcut := cutAt_intercalate hc hn [] r rs h
    simp only [List.nil_append, List.length_nil] at hcut
    simp [splitTopLevel, marks, hcut]

theorem splitTopLevel_intercalate {avoid n : List Char} {c : Char} (hc : Cutting avoid c)
    (hn : ∀ d ∈ n, isOrdinary d = true) {rs : List (List Char)} (h : ∀ r ∈ rs, Sealed avoid r) :
    splitTopLevel ((c :: n).intercalate rs) (c :: n) = (rs.map trim).filter (!·.isEmpty) :=
  splitTopLevel_of_keepsOut hc.ordinary hn fun r hr => (h r hr).keepsOut hc n

/-! ### Brackets -/

/-- The bracket that closes a group is the one right behind its sealed inside. -/
theorem balancedLength?_group {inner : List Char} {o c : Char} (hc : closingFor? o = some c)
    (hi : Sealed [] inner) (rest : List Char) :
    balancedLength? (o :: (inner ++ c :: rest)) = some (inner.length + 1) := by
  obtain ⟨ms, he, hm⟩ := hi.marksFrom_append 1 1 (c :: rest)
  rw [marksFrom_close hc] at he
  have hmarks : marks (o :: (inner ++ c :: rest)) = _ := marksFrom_open hc 0 0 _
  have hnone : ms.find? (fun m => decide (0 < m.index) && m.depth == 0 && m.char == c) = none := by
    rw [List.find?_eq_none]
    intro m hmem
    have hd : m.depth ≠ 0 := by
      have := (hm m hmem).depth
      omega
    simp [hd]
  simp only [balancedLength?, hc, hmarks, he, Option.bind_eq_bind, Option.bind_some]
  rw [List.find?_cons_of_neg (by simp), List.find?_append, hnone]
  simp [Nat.add_comm]

theorem isGroup_bracket {inner : List Char} {o c : Char} (hc : closingFor? o = some c)
    (hi : Sealed [] inner) : isGroup o (o :: (inner ++ [c])) = true := by
  simp [isGroup, balancedLength?_group hc hi]

theorem isGroup_of_head {o : Char} {t : List Char} (h : t.head? ≠ some o) :
    isGroup o t = false := by
  simp [isGroup, h]

/-- A group with something behind it is no group as a whole. -/
theorem isGroup_append {inner rest : List Char} {o c : Char} (hc : closingFor? o = some c)
    (hi : Sealed [] inner) (hne : rest ≠ []) (d : Char) :
    isGroup d (o :: (inner ++ c :: rest)) = false := by
  have hlen : rest.length ≠ 0 := by simpa using hne
  simp only [isGroup, balancedLength?_group hc hi, Bool.and_eq_false_iff]
  right
  simp only [List.length_cons, List.length_append, beq_eq_false_iff_ne, ne_eq, Option.some.injEq]
  omega

/-- What starts with a properly nested text is not one group if something stands behind it. -/
theorem Sealed.isGroup_append {avoid t rest : List Char} (h : Sealed avoid t) (hne : t ≠ [])
    (hrest : rest ≠ []) : isGroup '(' (t ++ rest) = false := by
  have hhead {c : Char} {u : List Char} (hc : c ≠ '(') : isGroup '(' (c :: u) = false :=
    isGroup_of_head (by simpa using hc)
  cases h with
  | nil => exact absurd rfl hne
  | plain _ hc _ => exact hhead (by rintro rfl; cases hc)
  | link _ _ => exact hhead (by decide)
  | literal hq _ _ => exact hhead (by rintro rfl; cases hq)
  | @group _ o c inner t hc hi _ =>
    have hbehind : t ++ rest ≠ [] := by simp [hrest]
    simpa using JsxToJinja.Code.isGroup_append hc hi hbehind '('

theorem groupInner_bracket (o c : Char) (inner : List Char) :
    groupInner (o :: (inner ++ [c])) = inner := by
  simp [groupInner]

theorem stripParens_of_not_group {t : List Char} (h : isGroup '(' t = false) (n : Nat) :
    stripParens n t = t := by
  cases n with
  | zero => rfl
  | succ n => simp [stripParens, h]

theorem stripOuterParens_of_not_group {t : List Char} (ht : Trimmed t)
    (h : isGroup '(' t = false) : stripOuterParens t = t := by
  rw [stripOuterParens, ht.trim_eq, stripParens_of_not_group h]

/-- As many steps as characters take off all parentheses there are. -/
theorem stripParens_stable {n m : Nat} {t : List Char} (hn : t.length ≤ n) (hm : t.length ≤ m) :
    stripParens n t = stripParens m t := by
  induction n generalizing m t with
  | zero =>
    have ht : t = [] := List.length_eq_zero_iff.1 (by omega)
    subst ht
    rw [stripParens_of_not_group (isGroup_of_head (by simp)),
      stripParens_of_not_group (isGroup_of_head (by simp))]
  | succ n ih =>
    by_cases hg : isGroup '(' t = true
    · have hlen : (trim (groupInner t)).length ≤ t.length - 2 :=
        Nat.le_trans (length_trim_le _) (by simp [groupInner]; omega)
      cases m with
      | zero =>
        have ht : t = [] := List.length_eq_zero_iff.1 (by omega)
        simp [ht, isGroup] at hg
      | succ m =>
        rw [stripParens, stripParens, if_pos hg, if_pos hg]
        exact ih (by omega) (by omega)
    · have hg' : isGroup '(' t = false := by simpa using hg
      rw [stripParens_of_not_group hg', stripParens_of_not_group hg']

theorem stripOuterParens_pad {u t v : List Char} (hu : Blank u) (ht : Trimmed t) (hv : Blank v) :
    stripOuterParens (u ++ (t ++ v)) = stripOuterParens t := by
  rw [stripOuterParens, stripOuterParens, trim_pad hu ht hv, ht.trim_eq]
  exact stripParens_stable (by simp; omega) (Nat.le_refl _)

section
variable {p t q : List Char}

/-- A text in parentheses, with the blanks inside them as a part of it. -/
theorem paren_text (p t q : List Char) :
    '(' :: (p ++ (t ++ (q ++ [')']))) = '(' :: ((p ++ (t ++ q)) ++ [')']) := by simp

theorem isGroup_paren (ht : Sealed [] t) (hp : Blank p) (hq : Blank q) :
    isGroup '(' ('(' :: (p ++ (t ++ (q ++ [')'])))) = true := by
  have hpad {u : List Char} (hu : Blank u) : Sealed [] u := sealed_of_blank hu (by simp)
  rw [paren_text]
  exact isGroup_bracket (by decide) ((hpad hp).append (ht.append (hpad hq)))

/-- Parentheses around a sealed text go, with the blanks inside them. -/
theorem stripOuterParens_paren (ht : Sealed [] t) (hedge : Trimmed t) (hp : Blank p) (hq : Blank q) :
    stripOuterParens ('(' :: (p ++ (t ++ (q ++ [')'])))) = stripOuterParens t := by
  have hlen := length_trim_le (p ++ (t ++ q))
  have hgroup := isGroup_paren ht hp hq
  have htrim : Trimmed ('(' :: ((p ++ (t ++ q)) ++ [')'])) :=
    trimmed_cons_concat (by decide) (by decide) _
  rw [← stripOuterParens_pad hp hedge hq]
  rw [paren_text] at hgroup ⊢
  rw [stripOuterParens, htrim.trim_eq, List.length_cons, stripParens, if_pos hgroup,
    groupInner_bracket, stripOuterParens]
  refine stripParens_stable ?_ hlen
  simp only [List.length_append] at hlen ⊢
  omega

end

end JsxToJinja.Code
