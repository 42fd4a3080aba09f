import JsxToJinja.Proofs.Code.Expression

/-! Comparisons of a property with a literal: they are told from all other texts and give back both
sides, in either order. -/
namespace JsxToJinja.Code
open JsxToJinja.Text JsxToJinja.Markup

/-- An integer starts with no letter and no quote. -/
theorem integer_head {c : Char} (h : c.isDigit = true ∨ c = '-') :
    isIdentifierStart c = false ∧ isQuote c = false := by
  rcases h with hd | rfl
  · have hname : isIdentifierChar c = true := by simp [isIdentifierChar, Char.isAlphanum, hd]
    refine ⟨?_, isQuote_eq_false (isOrdinary_of_isIdentifierChar hname)⟩
    simp only [Char.isDigit, Bool.and_eq_true, decide_eq_true_eq] at hd
    have hval : c.toNat = c.val.toNat := rfl
    have hlo : 48 ≤ c.toNat := hd.1
    have hhi : c.toNat ≤ 57 := hd.2
    rw [← Bool.not_eq_true]
    intro hs
    simp only [isIdentifierStart, Bool.or_eq_true, isAlpha_iff, beq_iff_eq] at hs
    rcases hs with (h | rfl) | rfl
    · omega
    · exact absurd hhi (by decide)
    · exact absurd hlo (by decide)
  · decide

theorem Operand.not_isIdentifier {v : Json} {l : List Char} (h : Operand v l) :
    isIdentifier l = false := by
  cases h with
  | str h =>
    cases h with
    | @mk q b hq _ =>
      have hs : isIdentifierStart q = false := by rcases hq with rfl | rfl <;> decide
      simp [isIdentifier, hs]
  | num hc _ _ =>
    cases l with
    | nil => rfl
    | cons c l => simp [isIdentifier, (integer_head (hc c List.mem_cons_self)).1]

/-- A name and a literal are found on their sides. -/
theorem comparedProp?_operand {x : String} {v : Json} {l : List Char}
    (hx : isIdentifier x.toList = true) (hv : Operand v l) :
    comparedProp? x.toList l = some (x, v) := by
  have hl : trim l = l := hv.edged.trimmed.trim_eq
  have hx' : (!isIdentifier x.toList) = false := by simp [hx]
  cases hv with
  | @str s l hq => simp [comparedProp?, hx', literalValue, hl, hq.stringLiteral?_eq]
  | num hc hn _ =>
    have hs : stringLiteral? l = none := by
      apply stringLiteral?_of_head
      rw [hl]
      exact fun c hm => (integer_head (hc c (List.mem_of_mem_head? hm))).2
    simp [comparedProp?, hx', literalValue, hl, hs, hn]

theorem eitherSide?_operand {x : String} {v : Json} {p q l : List Char}
    (hx : isIdentifier x.toList = true) (hv : Operand v l) (hp : Blank p) (hq : Blank q) :
    eitherSide? (x.toList ++ p) (q ++ l) = some (x, v) ∧
      eitherSide? (l ++ p) (q ++ x.toList) = some (x, v) := by
  have hleft {t : List Char} (ht : Trimmed t) : trim (t ++ p) = t := by
    simpa using trim_pad blank_nil ht hp
  have hright {t : List Char} (ht : Trimmed t) : trim (q ++ t) = t := by
    simpa using trim_pad hq ht blank_nil
  have hname := trimmed_of_isIdentifier hx
  have hlit := hv.edged.trimmed
  constructor
  · rw [eitherSide?, hleft hname, hright hlit, comparedProp?_operand hx hv]
    rfl
  · have hnone : comparedProp? l x.toList = none := by simp [comparedProp?, hv.not_isIdentifier]
    rw [eitherSide?, hleft hlit, hright hname, comparedProp?_operand hx hv, hnone]
    rfl

/-! ### Both operators -/

section
variable {avoid a b : List Char} {c : Char}

/-- The longer operator is found behind a side that does not hold it. -/
theorem splitComparison?_first (ha : Sealed avoid a) (hc : Cutting avoid c) (n short : List Char) :
    splitComparison? (a ++ ((c :: n) ++ b)) (c :: n) short = some (a, b) := by
  have hfind : findTopLevel? (a ++ ((c :: n) ++ b)) (c :: n) = some a.length :=
    ha.findTopLevel?_append hc n b
  have hdrop : (a ++ ((c :: n) ++ b)).drop (a.length + (c :: n).length) = b := by
    rw [← List.append_assoc, ← List.length_append, List.drop_left]
  simp only [splitComparison?, hfind, List.take_left, hdrop]

theorem splitComparison?_none {t : List Char} (ht : Sealed avoid t) (hc : Cutting avoid c)
    (n m : List Char) : splitComparison? t (c :: n) (c :: m) = none := by
  simp only [splitComparison?, ht.findTopLevel?_eq_none hc, Option.map_none]

/-- In `!==` only two equals signs stand together. -/
theorem splitComparison?_behind_bang (ha : Sealed ['='] a) (hb : Sealed ['='] b)
    (hne : b.head? ≠ some '=') :
    splitComparison? (a ++ (comparison true ++ b)) "===".toList "==".toList = some (a ++ ['!'], b) := by
  have htext : a ++ (comparison true ++ b) = (a ++ ['!']) ++ '=' :: (['='] ++ b) := by
    simp [comparison]
  have hcut : Cutting ['='] '=' := ⟨by simp, by decide, by decide⟩
  have hfront : Sealed ['='] (a ++ ['!']) := ha.append (sealed_of_ordinary (by decide))
  have hlong : findTopLevel? ((a ++ ['!']) ++ '=' :: (['='] ++ b)) "===".toList = none := by
    obtain ⟨ms, he, hm⟩ := hfront.marksFrom_append 0 0 ('=' :: (['='] ++ b))
    obtain ⟨ns, he', hn⟩ := hb.marksFrom_append 0 ((a ++ ['!']).length + 1 + 1) []
    have hmarks : marks ((a ++ ['!']) ++ '=' :: (['='] ++ b)) = ms ++
        ⟨(a ++ ['!']).length, '=', 0, '=' :: '=' :: b⟩ ::
        ⟨(a ++ ['!']).length + 1, '=', 0, '=' :: b⟩ :: ns := by
      rw [List.append_nil] at he'
      rw [marks, he, Nat.zero_add, List.singleton_append, marksFrom_ordinary (by decide),
        marksFrom_ordinary (by decide), he']
      simp [marksFrom]
    have hfirst : startsWith ('=' :: '=' :: b) "===".toList = false := startsWith_of_head hne []
    have hsecond : startsWith ('=' :: b) "===".toList = false := startsWith_of_head hne ['=']
    have hnone : (marks ((a ++ ['!']) ++ '=' :: (['='] ++ b))).find? (·.starts "===".toList) = none := by
      rw [List.find?_eq_none, hmarks]
      intro m hmem
      rcases List.mem_append.1 hmem with hmem | hmem
      · exact ne_true_of_eq_false ((hm m hmem).not_starts hcut ['=', '='])
      rcases List.mem_cons.1 hmem with rfl | hmem
      · simp only [Mark.starts, hfirst, Bool.and_false, Bool.false_eq_true, not_false_eq_true]
      rcases List.mem_cons.1 hmem with rfl | hmem
      · simp only [Mark.starts, hsecond, Bool.and_false, Bool.false_eq_true, not_false_eq_true]
      · exact ne_true_of_eq_false ((hn m hmem).not_starts hcut ['=', '='])
    simp only [findTopLevel?, hnone]
    rfl
  have hshort : findTopLevel? ((a ++ ['!']) ++ '=' :: (['='] ++ b)) "==".toList =
      some (a ++ ['!']).length := hfront.findTopLevel?_append hcut ['='] b
  have hdrop : ((a ++ ['!']) ++ ((['=', '=']) ++ b)).drop ((a ++ ['!']).length + 2) = b := by
    rw [← List.append_assoc]
    exact List.drop_left' (by simp)
  rw [htext]
  simp only [splitComparison?, hlong, hshort, Option.map_some, List.take_left]
  exact congrArg (fun r => some (a ++ ['!'], r)) hdrop

end

/-- A side of a comparison: a name or a literal. -/
structure IsSide (t : List Char) : Prop where
  sealed : Sealed ['!', '='] t
  head : t.head? ≠ some '='
  last : t.getLast? ≠ some '!'

theorem isSide_name {t : List Char} (h : isIdentifier t = true) : IsSide t where
  sealed := sealed_of_nameChars (fun _ hc => isIdentifierChar_of_mem h hc) (by decide)
  head := by simpa using head?_name_ne h (by decide) []
  last := fun hl => absurd (isIdentifierChar_of_mem h (List.mem_of_getLast? hl)) (by decide)

theorem isSide_operand {v : Json} {t : List Char} (h : Operand v t) : IsSide t where
  sealed := h.sealed (by decide)
  head := by simpa using h.head?_ne (by decide) (by decide) (by decide) []
  last := by
    intro hl
    cases h with
    | str h =>
      cases h with
      | mk hq _ =>
        simp only [List.getLast?_cons, List.getLast?_append, Option.some_or, Option.getD_some,
          Option.some.injEq] at hl
        rcases hq with rfl | rfl <;> exact absurd hl (by decide)
    | num hc _ _ =>
      rcases hc _ (List.mem_of_getLast? hl) with hd | hd <;> exact absurd hd (by decide)

/-- Between two sides each search finds its own operator and not the other. -/
theorem compared_sides {negated : Bool} {a b p q : List Char} {found : String × Json}
    (ha : IsSide a) (hb : IsSide b) (hp : Blank p) (hq : Blank q)
    (hg : stripOuterParens (a ++ (p ++ (comparison negated ++ (q ++ b)))) =
      a ++ (p ++ (comparison negated ++ (q ++ b))))
    (hf : eitherSide? (a ++ p) (q ++ b) = some found) :
    inequality? (a ++ (p ++ (comparison negated ++ (q ++ b)))) =
        (if negated then some found else none) ∧
      equality? (a ++ (p ++ (comparison negated ++ (q ++ b)))) =
        (if negated then none else some found) := by
  have hpad {avoid p : List Char} (hav : avoid ⊆ ['!', '=']) (hp : Blank p) : Sealed avoid p :=
    sealed_of_blank hp fun c hc => by
      have := hav hc
      simp only [List.mem_cons, List.not_mem_nil, or_false] at this
      rcases this with rfl | rfl <;> decide
  have hleft {avoid : List Char} (hav : avoid ⊆ ['!', '=']) : Sealed avoid (a ++ p) :=
    (ha.sealed.mono hav).append (hpad hav hp)
  have hright {avoid : List Char} (hav : avoid ⊆ ['!', '=']) : Sealed avoid (q ++ b) :=
    (hpad hav hq).append (hb.sealed.mono hav)
  have hbang : Cutting ['!'] '!' := ⟨by simp, by decide, by decide⟩
  have heq : Cutting ['='] '=' := ⟨by simp, by decide, by decide⟩
  have hlast : ¬ ((a ++ p).getLast? == some '!') = true := by
    rw [beq_iff_eq, List.getLast?_append]
    cases hl : p.getLast? with
    | none => simpa using ha.last
    | some d =>
      simp only [Option.some_or, Option.some.injEq]
      rintro rfl
      exact absurd (hp _ (List.mem_of_getLast? hl)) (by decide)
  have hhead : (q ++ b).head? ≠ some '=' := by
    cases q with
    | nil => simpa using hb.head
    | cons d q =>
      simp only [List.cons_append, List.head?_cons, ne_eq, Option.some.injEq]
      rintro rfl
      exact absurd (hq _ List.mem_cons_self) (by decide)
  have hassoc : a ++ (p ++ (comparison negated ++ (q ++ b))) = (a ++ p) ++ (comparison negated ++ (q ++ b)) := by
    simp
  rw [inequality?, equality?, hg, hassoc]
  cases negated with
  | true =>
    have hone : splitComparison? ((a ++ p) ++ (comparison true ++ (q ++ b))) "!==".toList "!=".toList =
        some (a ++ p, q ++ b) := splitComparison?_first (hleft (by decide)) hbang ['=', '='] _
    have htwo := splitComparison?_behind_bang (hleft (by decide)) (hright (by decide)) hhead
    rw [hone, htwo]
    simp [hf]
  | false =>
    have hwhole : Sealed ['!'] ((a ++ p) ++ (comparison false ++ (q ++ b))) :=
      (hleft (by decide)).append ((sealed_of_ordinary (by decide)).append (hright (by decide)))
    have hone : splitComparison? ((a ++ p) ++ (comparison false ++ (q ++ b))) "!==".toList "!=".toList =
        none := splitComparison?_none hwhole hbang ['=', '='] ['=']
    have htwo : splitComparison? ((a ++ p) ++ (comparison false ++ (q ++ b))) "===".toList "==".toList =
        some (a ++ p, q ++ b) := splitComparison?_first (hleft (by decide)) heq ['=', '='] _
    rw [hone, htwo]
    simp only [Option.bind_eq_bind, Option.bind_none, Option.bind_some, if_neg hlast, hf]
    simp

/-- A comparison gives back its property and its literal. -/
theorem Reads.comparison_eq {k : Nat} {negated : Bool} {x : String} {v : Json} {t : List Char}
    (h : Reads k (.compare negated x v) t) (hg : isGroup '(' t = false) :
    inequality? t = (if negated then some (x, v) else none) ∧
      equality? t = (if negated then none else some (x, v)) := by
  have hstrip := stripOuterParens_of_not_group h.edged.trimmed hg
  cases h with
  | compare _ hx _ hv hp hq =>
    exact compared_sides (isSide_name hx) (isSide_operand hv) hp hq hstrip
      (eitherSide?_operand hx hv hp hq).1
  | flipped _ hx _ hv hp hq =>
    exact compared_sides (isSide_operand hv) (isSide_name hx) hp hq hstrip
      (eitherSide?_operand hx hv hp hq).2
  | paren _ ht hp hq =>
    rw [isGroup_paren ht.nested hp hq] at hg
    cases hg

/-- Texts without equals signs compare nothing. -/
theorem equality?_eq_none {t : List Char} (ht : Trimmed t) (hg : isGroup '(' t = false)
    (hs : Sealed ['='] t) : equality? t = none := by
  have hcut : Cutting ['='] '=' := ⟨by simp, by decide, by decide⟩
  have hnone : splitComparison? t "===".toList "==".toList = none :=
    splitComparison?_none hs hcut ['=', '='] ['=']
  simp only [equality?, stripOuterParens_of_not_group ht hg, hnone, Option.bind_eq_bind,
    Option.bind_none]

theorem inequality?_eq_none {t : List Char} (ht : Trimmed t) (hg : isGroup '(' t = false)
    (hlong : findTopLevel? t "!==".toList = none) (hshort : findTopLevel? t "!=".toList = none) :
    inequality? t = none := by
  simp only [inequality?, stripOuterParens_of_not_group ht hg, splitComparison?, hlong, hshort,
    Option.map_none, Option.bind_eq_bind, Option.bind_none]

private theorem not_starts_bang {k : Nat} {e : Expression} {t : List Char} (h : Reads k e t)
    (hk : 4 ≤ k) (hm : e.hasMarkup = false) (n : List Char) (i : Nat) :
    ∀ m ∈ marksFrom .code 0 i t, m.starts ('!' :: '=' :: n) = false := by
  have hcut : Cutting ['!'] '!' := ⟨by simp, by decide, by decide⟩
  have hclear {t : List Char} (hs : Sealed ['!'] t) (i : Nat) :
      ∀ m ∈ marksFrom .code 0 i t, m.starts ('!' :: '=' :: n) = false := by
    obtain ⟨ms, he, hms⟩ := hs.marksFrom_append 0 i []
    have hmarks : marksFrom .code 0 i t = ms := by simpa [marksFrom] using he
    rw [hmarks]
    exact fun m hmem => (hms m hmem).not_starts hcut _
  induction h generalizing i with
  | path _ hp _ => exact hclear (hp.sealed (by decide)) i
  | str _ hq => exact hclear hq.sealed i
  | markup => cases hm
  | absent _ hw => exact hclear (sealed_absent (by decide) hw) i
  | compare hk' => omega
  | flipped hk' => omega
  | @join k j _ _ _ _ _ _ hk' =>
    have : j.level ≤ 2 := by cases j <;> decide
    omega
  | cond => omega
  | paren _ ht hp hq _ => exact hclear (ht.nested.paren hp hq) i
  | @not k e p t _ hp ht ih =>
    have hpad : Sealed ['!'] p := sealed_pad (by decide) hp
    obtain ⟨ms, he, hms⟩ := hpad.marksFrom_append 0 (i + 1) t
    have hstart : startsWith ('!' :: (p ++ t)) ('!' :: '=' :: n) = false :=
      startsWith_of_head (ht.edged.head?_pad_ne hp (by decide) (by decide)) n
    rw [marksFrom_ordinary (by decide), he]
    intro m hmem
    rcases List.mem_cons.1 hmem with rfl | hmem
    · simp only [Mark.starts, hstart, Bool.and_false]
    rcases List.mem_append.1 hmem with hmem | hmem
    · exact (hms m hmem).not_starts hcut _
    · exact ih (Nat.le_refl 4) hm _ m hmem

theorem Reads.findTopLevel?_bang {e : Expression} {t : List Char} (h : Reads 4 e t)
    (hm : e.hasMarkup = false) (n : List Char) : findTopLevel? t ('!' :: '=' :: n) = none := by
  have hnone : (marks t).find? (·.starts ('!' :: '=' :: n)) = none := by
    rw [List.find?_eq_none]
    exact fun m hmem => ne_true_of_eq_false (not_starts_bang h (Nat.le_refl 4) hm n 0 m hmem)
  simp [findTopLevel?, hnone]

/-! ### What is found is a comparison -/

private theorem isSign_junctions : ∀ c ∈ ['&', '|'], isSign c = true := by decide

/-- Sides that compare as a property and a value hold no junction, so no operand is cut in two. -/
theorem sealed_of_comparedProp? {name value : List Char} {found : String × Json}
    (hv : Trimmed value) (h : comparedProp? name value = some found) :
    Sealed ['&', '|'] name ∧ Sealed ['&', '|'] value := by
  rw [comparedProp?] at h
  split at h
  · cases h
  · rename_i hname
    refine ⟨sealed_name isSign_junctions (by simpa using hname), ?_⟩
    cases hs : stringLiteral? value with
    | some s =>
      obtain ⟨q, body, hq, hb, ht⟩ := literal_of_stringLiteral? hs
      rw [hv.trim_eq] at ht
      rw [ht]
      exact sealed_literal hq hb
    | none =>
      cases hn : Number.parse? value with
      | none => simp [literalValue, hv.trim_eq, hs, hn] at h
      | some n =>
        refine sealed_of_ordinary fun c hc => ?_
        have hnum := Number.numeric_of_parse? hn c hc
        simp only [Number.isNumeric, Bool.or_eq_true, List.contains_iff_mem] at hnum
        rcases hnum with hd | hd
        · have hchar : isIdentifierChar c = true := by simp [isIdentifierChar, Char.isAlphanum, hd]
          refine ⟨fun hm => ?_, isOrdinary_of_isIdentifierChar hchar⟩
          have := isSign_junctions c hm
          simp [isSign, hchar] at this
        · have hall : ∀ d ∈ ['-', '+', '.', 'e', 'E'], d ∉ ['&', '|'] ∧ isOrdinary d = true := by decide
          exact hall c hd

theorem sealed_of_eitherSide? {left right : List Char} {found : String × Json}
    (h : eitherSide? left right = some found) :
    Sealed ['&', '|'] left ∧ Sealed ['&', '|'] right := by
  have hpad {t : List Char} (ht : Sealed ['&', '|'] (trim t)) : Sealed ['&', '|'] t := by
    obtain ⟨u, v, hu, hv, he⟩ := exists_pad t
    rw [he]
    exact (sealed_pad isSign_junctions hu).append (ht.append (sealed_pad isSign_junctions hv))
  rcases Option.or_eq_some_iff.1 h with h | ⟨-, h⟩
  · obtain ⟨hl, hr⟩ := sealed_of_comparedProp? (trimmed_trim right) h
    exact ⟨hpad hl, hpad hr⟩
  · obtain ⟨hr, hl⟩ := sealed_of_comparedProp? (trimmed_trim left) h
    exact ⟨hpad hl, hpad hr⟩

private theorem sealed_of_splitComparison? {t long short left right : List Char}
    (h : splitComparison? t long short = some (left, right)) (hlong : Sealed ['&', '|'] long)
    (hshort : Sealed ['&', '|'] short) (hl : Sealed ['&', '|'] left) (hr : Sealed ['&', '|'] right) :
    Sealed ['&', '|'] t := by
  have hcut {needle : List Char} {i : Nat} (hf : findTopLevel? t needle = some i)
      (hn : Sealed ['&', '|'] needle) (hl : Sealed ['&', '|'] (t.take i))
      (hr : Sealed ['&', '|'] (t.drop (i + needle.length))) : Sealed ['&', '|'] t := by
    obtain ⟨r, hr'⟩ := prefix_of_findTopLevel? hf
    have hrest : t.drop (i + needle.length) = r := by
      rw [← List.drop_drop, ← hr', List.drop_left]
    rw [← List.take_append_drop i t, ← hr', ← hrest]
    exact hl.append (hn.append hr)
  rw [splitComparison?] at h
  split at h
  · rename_i i hf
    cases h
    exact hcut hf hlong hl hr
  · obtain ⟨i, hf, he⟩ := Option.map_eq_some_iff.1 h
    cases he
    exact hcut hf hshort hl hr

/-- An equality holds no junction outside its parentheses. -/
theorem sealed_of_equality? {t : List Char} {found : String × Json} (h : equality? t = some found) :
    Sealed ['&', '|'] (stripOuterParens t) := by
  obtain ⟨⟨left, right⟩, hsplit, h⟩ := Option.bind_eq_some_iff.1 h
  dsimp only at h
  split at h
  · cases h
  · obtain ⟨hl, hr⟩ := sealed_of_eitherSide? h
    exact sealed_of_splitComparison? hsplit (sealed_of_ordinary (by decide))
      (sealed_of_ordinary (by decide)) hl hr

theorem sealed_of_inequality? {t : List Char} {found : String × Json}
    (h : inequality? t = some found) : Sealed ['&', '|'] (stripOuterParens t) := by
  obtain ⟨⟨left, right⟩, hsplit, h⟩ := Option.bind_eq_some_iff.1 h
  obtain ⟨hl, hr⟩ := sealed_of_eitherSide? h
  exact sealed_of_splitComparison? hsplit (sealed_of_ordinary (by decide))
    (sealed_of_ordinary (by decide)) hl hr

end JsxToJinja.Code
