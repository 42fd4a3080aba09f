import JsxToJinja.Proofs.Jinja.Grouping
import JsxToJinja.Proofs.Jinja.LiteralValues
import JsxToJinja.Proofs.Jinja.Tokens

/-! Lists and arguments of calls. The code between two brackets is translated as one expression, which
gives the translations of the elements, unless a conditional takes its neighbours along. -/
namespace JsxToJinja.Code
open JsxToJinja.Text

theorem MemberPath.char_of_mem (p : MemberPath) {c : Char} (h : c ∈ p.text) :
    isIdentifierChar c = true ∨ c = '.' ∨ c = '?' := by
  rw [text, List.mem_append, List.mem_flatMap] at h
  rcases h with h | ⟨⟨optional, w⟩, hl, h⟩
  · exact .inl (isIdentifierChar_of_mem p.head_name h)
  · have hw := p.links_names _ hl
    rw [linkText, List.mem_append] at h
    rcases h with h | h
    · cases optional
      · exact .inr (.inl (by simpa using h))
      · have : c = '?' ∨ c = '.' := by simpa using h
        exact .inr this.symm
    · exact .inl (isIdentifierChar_of_mem hw h)

end JsxToJinja.Code

namespace JsxToJinja.Jinja
open JsxToJinja.Text JsxToJinja.Code

/-- Code that holds its own between commas: it is properly nested, without a conditional outside its
brackets or parentheses around all of it, and ends in an operand. -/
structure Element (names : NameMap) (t : List Char) : Prop where
  nested : Sealed ['?'] t
  trimmed : Trimmed t
  bare : isGroup '(' t = false
  last : ∃ c ∈ t.getLast?, endsOperand c = true
  literal : ∀ body, '\x60' :: (body ++ ['\x60']) <:+ t → LiteralBody '\x60' body →
    translateText names ('\x60' :: (body ++ ['\x60'])) ≠ []

def commas (ts : List (List Char)) : List Char := ", ".toList.intercalate ts

theorem commas_cons (t u : List Char) (ts : List (List Char)) :
    commas (t :: u :: ts) = t ++ ',' :: ' ' :: commas (u :: ts) := by
  rw [commas, List.intercalate_cons_cons]
  simp [commas]

theorem length_le_commas {t : List Char} {ts : List (List Char)} (h : t ∈ ts) :
    t.length ≤ (commas ts).length := by
  induction ts with
  | nil => cases h
  | cons u ts ih =>
    cases ts with
    | nil =>
      obtain rfl := List.mem_singleton.1 h
      simp [commas]
    | cons v ts =>
      rw [commas_cons]
      simp only [List.length_append, List.length_cons]
      rcases List.mem_cons.1 h with rfl | h
      · omega
      · have := ih h
        omega

section
variable {names : NameMap} (hnames : ∀ depth, Trims names (translateWithin names (depth + 1)))
  {t : List Char} {ts : List (List Char)}

/-! ### One element -/

theorem Element.ne_nil (h : Element names t) : t ≠ [] := by
  rintro rfl
  obtain ⟨c, hc, -⟩ := h.last
  cases hc

/-- The translation of an element ends like an operand. -/
theorem Element.endsOperand (h : Element names t) {d : Nat} (hd : t.length ≤ d) :
    EndsOperand (translateWithin names d) t := by
  refine ⟨h.last, fun body hsuffix hbody hnil => h.literal body hsuffix hbody ?_⟩
  have hlen := hsuffix.length_le
  rw [literalText_congr fun s hs => translateWithin_stable _ (Nat.lt_of_lt_of_le hs (hlen.trans hd)) hs]
    at hnil
  rw [translateText_literal_eq _ (by decide) hbody, hnil]
  rfl

include hnames in
/-- An element is translated as it is written, wherever it stands. -/
theorem Element.translateText_eq (h : Element names t) {d : Nat} (hd : t.length ≤ d) :
    translateText names t = (writeFrom names (translateWithin names d) 0 [] t).reverse ∧
      Trimmed (translateText names t) ∧ translateText names t ≠ [] := by
  have hpos := List.length_pos_iff.2 h.ne_nil
  obtain ⟨d, rfl⟩ : ∃ n, d = n + 1 := ⟨d - 1, by omega⟩
  obtain ⟨htrim, hne⟩ := trimmed_writeFrom (hnames d) (h.nested.mono (by simp)) (h.endsOperand hd)
  have heq : translateText names t =
      (writeFrom names (translateWithin names (d + 1)) 0 [] t).reverse := by
    rw [← translateWithin_eq _ (n := d + 1 + 1) (by omega), translateWithin, translateStep,
      stripOuterParens_of_not_group h.trimmed h.bare, h.nested.splitTernary?_eq_none (by simp)]
    exact htrim.trim_eq
  exact ⟨heq, heq ▸ htrim, heq ▸ hne⟩

/-! ### Elements between commas -/

theorem writeFrom_comma (names : NameMap) (write : Writer) (out t : List Char) :
    writeFrom names write 0 out (',' :: ' ' :: t) = writeFrom names write 0 (' ' :: ',' :: out) t := by
  rw [writeFrom_char write out (by decide) (by decide) (by decide) (by decide), writeFrom,
    if_pos (by decide)]
  rfl

theorem stops_comma (t : List Char) : Stops (',' :: t) := by
  rintro c hc
  obtain rfl := Option.some.inj hc
  decide

include hnames in
/-- The elements are written one after the other. -/
theorem writeFrom_commas (hts : ∀ t ∈ ts, Element names t) {d : Nat} (hd : ∀ t ∈ ts, t.length ≤ d)
    {base : List Char} (hb : Resting base) :
    writeFrom names (translateWithin names d) 0 base (commas ts) =
      (commas (ts.map (translateText names))).reverse ++ base := by
  induction ts generalizing base with
  | nil => rfl
  | cons t ts ih =>
    have ht := hts t List.mem_cons_self
    have hone {rest : List Char} (hs : Stops rest) :
        writeFrom names (translateWithin names d) 0 base (t ++ rest) =
          writeFrom names (translateWithin names d) 0 ((translateText names t).reverse ++ base) rest := by
      rw [(ht.translateText_eq hnames (hd t List.mem_cons_self)).1, List.reverse_reverse]
      exact writeFrom_around (ht.nested.mono (by simp)) [] hb hs
    cases ts with
    | nil =>
      have := hone stops_nil
      simpa [commas, writeFrom] using this
    | cons u ts =>
      have hrest : Resting (' ' :: ',' :: ((translateText names t).reverse ++ base)) :=
        .inr ⟨_, _, rfl, by decide⟩
      have hih := ih (fun t ht => hts t (List.mem_cons_of_mem _ ht))
        (fun t ht => hd t (List.mem_cons_of_mem _ ht)) hrest
      rw [commas_cons, hone (stops_comma _), writeFrom_comma, hih, List.map_cons, List.map_cons,
        List.map_cons, commas_cons]
      simp

theorem nested_commas {avoid : List Char} (h : ∀ t ∈ ts, Sealed avoid t)
    (ha : ∀ c ∈ avoid, isBlank c = false ∧ c ≠ ',') : Sealed avoid (commas ts) := by
  induction ts with
  | nil => exact .nil
  | cons t ts ih =>
    have ht := h t List.mem_cons_self
    cases ts with
    | nil => simpa [commas] using ht
    | cons u ts =>
      have hspace : Sealed avoid [' '] := sealed_of_blank blank_space fun c hc => (ha c hc).1
      have hcomma : ',' ∉ avoid := fun hc => (ha _ hc).2 rfl
      rw [commas_cons]
      exact ht.append (.plain hcomma (by decide) (hspace.append (ih fun t ht =>
        h t (List.mem_cons_of_mem _ ht))))

theorem trimmed_commas (h : ∀ t ∈ ts, Trimmed t ∧ t ≠ []) :
    Trimmed (commas ts) ∧ (ts ≠ [] → commas ts ≠ []) := by
  induction ts with
  | nil => exact ⟨trimmed_of_no_blank (by simp [commas, List.intercalate]), fun h => absurd rfl h⟩
  | cons t ts ih =>
    obtain ⟨ht, hne⟩ := h t List.mem_cons_self
    cases ts with
    | nil => simpa [commas] using ⟨ht, hne⟩
    | cons u ts =>
      obtain ⟨htrim, hrest⟩ := ih fun t ht => h t (List.mem_cons_of_mem _ ht)
      rw [commas_cons]
      exact ⟨ht.between htrim hne (hrest (by simp)) [',', ' '], by simp⟩

theorem bare_commas (hts : ∀ t ∈ ts, Element names t) : isGroup '(' (commas ts) = false := by
  cases ts with
  | nil => rfl
  | cons t ts =>
    have ht := hts t List.mem_cons_self
    cases ts with
    | nil => simpa [commas] using ht.bare
    | cons u ts =>
      rw [commas_cons]
      exact ht.nested.isGroup_append ht.ne_nil (by simp)

include hnames in
/-- Elements between commas are translated one by one. -/
theorem translateText_commas (hts : ∀ t ∈ ts, Element names t) :
    translateText names (commas ts) = commas (ts.map (translateText names)) := by
  have hnested : Sealed ['?'] (commas ts) :=
    nested_commas (fun t ht => (hts t ht).nested) (by decide)
  have htrim := (trimmed_commas fun t ht => ⟨(hts t ht).trimmed, (hts t ht).ne_nil⟩).1
  have hparts : ∀ u ∈ ts.map (translateText names), Trimmed u ∧ u ≠ [] := by
    intro u hu
    obtain ⟨t, ht, rfl⟩ := List.mem_map.1 hu
    exact ((hts t ht).translateText_eq hnames (Nat.le_refl _)).2
  rw [translateText, translateWithin, translateStep, stripOuterParens_of_not_group htrim (bare_commas hts),
    hnested.splitTernary?_eq_none (by simp)]
  dsimp only
  rw [writeFrom_commas hnames hts (fun t ht => length_le_commas ht) resting_nil, List.append_nil,
    List.reverse_reverse, (trimmed_commas hparts).1.trim_eq]

/-! ### Brackets -/

theorem groupText_bracket {o c : Char} (ho : o ≠ '\x7b') (write : Writer) (inner : List Char) :
    groupText write (o :: (inner ++ [c])) = o :: (write inner ++ [c]) := by
  rw [groupText.eq_def]
  split
  · rename_i heq
    exact absurd (List.cons.inj heq).1 ho
  · rename_i heq
    obtain ⟨rfl, rfl⟩ := List.cons.inj heq
    simp [groupInner_bracket, List.getLast?_cons]
  · rename_i heq
    cases heq

/-- A list is translated inside its brackets. -/
theorem translateText_brackets {inner : List Char} (hi : Sealed [] inner) :
    translateText names ('[' :: (inner ++ [']'])) = '[' :: (translateText names inner ++ [']']) := by
  have htrim (inner : List Char) : Trimmed ('[' :: (inner ++ [']'])) :=
    trimmed_cons_concat (by decide) (by decide) inner
  have hnested : Sealed ['?'] ('[' :: (inner ++ [']'])) := Sealed.bracket (by decide) hi
  rw [translateText, translateWithin, translateStep,
    stripOuterParens_of_not_group (htrim inner) (isGroup_of_head (by simp)),
    hnested.splitTernary?_eq_none (by simp)]
  dsimp only
  rw [writeFrom_bracket _ [] (by decide) hi, writeFrom, List.append_nil, List.reverse_reverse,
    groupText_bracket (by decide), translateWithin_eq _ (by simp only [List.length_cons, List.length_append]; omega)]
  exact (htrim _).trim_eq

theorem element_of_path (names : NameMap) (p : MemberPath) : Element names p.text where
  nested := p.isPath.sealed (by decide)
  trimmed := p.isPath.edged.trimmed
  bare := isGroup_of_head (p.isPath.head?_ne (by decide))
  last := by
    obtain ⟨c, hc, hedge⟩ := p.isPath.edged.last
    refine ⟨c, hc, ?_⟩
    rcases p.char_of_mem (List.mem_of_mem_getLast? hc) with h | rfl | rfl
    · simp [Jinja.endsOperand, h]
    · cases hedge
    · cases hedge
  literal body hsuffix _ := by
    have htick : '\x60' ∈ p.text := hsuffix.subset List.mem_cons_self
    rcases p.char_of_mem htick with h | h | h <;> cases h

include hnames in
/-- The arguments of a call are translated inside its parentheses. -/
theorem translateText_call (p : MemberPath) {inner : List Char} (hi : Sealed [] inner) :
    translateText names (p.text ++ '(' :: (inner ++ [')'])) =
      translateText names p.text ++ '(' :: (translateText names inner ++ [')']) := by
  have hp := element_of_path names p
  have hgroup : Sealed ['?'] ('(' :: (inner ++ [')'])) := Sealed.bracket (by decide) hi
  have hclosing : Trimmed [')'] := trimmed_singleton (by decide)
  have htrim {u : List Char} (hu : Trimmed u) (hne : u ≠ []) (inner : List Char) :
      Trimmed (u ++ '(' :: (inner ++ [')'])) := hu.between hclosing hne (by simp) ('(' :: inner)
  have hstops : Stops ('(' :: (inner ++ [')'])) := by
    rintro c hc
    obtain rfl := Option.some.inj hc
    decide
  obtain ⟨heq, hptrim, hpne⟩ := hp.translateText_eq hnames
    (Nat.le_add_right p.text.length ('(' :: (inner ++ [')'])).length)
  rw [← List.length_append] at heq
  have haround (write : Writer) : writeFrom names write 0 ([] ++ []) (p.text ++ '(' :: (inner ++ [')'])) =
      writeFrom names write 0 (writeFrom names write 0 [] p.text ++ []) ('(' :: (inner ++ [')'])) :=
    writeFrom_around (hp.nested.mono (by simp)) [] resting_nil hstops
  have hwritten := haround (translateWithin names (p.text ++ '(' :: (inner ++ [')'])).length)
  rw [List.nil_append, List.append_nil, ← List.reverse_reverse (writeFrom _ _ 0 [] p.text), ← heq]
    at hwritten
  rw [translateText, translateWithin, translateStep,
    stripOuterParens_of_not_group (htrim hp.trimmed hp.ne_nil inner)
      (hp.nested.isGroup_append hp.ne_nil (by simp)),
    (hp.nested.append hgroup).splitTernary?_eq_none (by simp)]
  dsimp only
  rw [hwritten, writeFrom_bracket _ _ (by decide) hi, writeFrom, List.reverse_append, List.reverse_reverse,
    List.reverse_reverse, groupText_bracket (by decide), translateWithin_eq _ (by simp; omega)]
  exact (htrim hptrim hpne _).trim_eq

/-! ### A conditional in front -/

/-- The condition and the first branch of a conditional, with the blanks around them. -/
structure Asks (a x : List Char) : Prop where
  condition : Sealed ['?'] a
  start : ∀ c ∈ a.head?, isBlank c = false
  asks : EndsPlain a
  branch : Sealed [] x
  paired : Paired x
  answers : StartsPlain x
  condition_ne_nil : trim a ≠ []
  branch_ne_nil : trim x ≠ []

include hnames in
/-- The last branch of a conditional goes on behind it. -/
theorem translateText_asks {a x u : List Char} (h : Asks a x) (hu : Blank u)
    (hts : ∀ t ∈ ts, Element names t) (hne : ts ≠ []) :
    translateText names (a ++ '?' :: (x ++ ':' :: (u ++ commas ts))) =
      branchText (translateText names) (trim x) ++ " if ".toList ++ translateText names (trim a) ++
        " else ".toList ++ commas (ts.map (translateText names)) := by
  obtain ⟨htrim, hcommas⟩ := trimmed_commas fun t ht => ⟨(hts t ht).trimmed, (hts t ht).ne_nil⟩
  have hane : a ≠ [] := by
    rintro rfl
    exact h.condition_ne_nil rfl
  have hlast : trim (u ++ commas ts) = commas ts := by
    simpa using trim_pad hu htrim blank_nil
  have hwhole : Trimmed (a ++ '?' :: (x ++ ':' :: (u ++ commas ts))) := by
    refine ⟨fun c hc => h.start c ?_, fun c hc => htrim.last c ?_⟩
    · rwa [List.head?_append_of_ne_nil _ hane] at hc
    · have htext : a ++ '?' :: (x ++ ':' :: (u ++ commas ts)) =
          (a ++ '?' :: (x ++ ':' :: u)) ++ commas ts := by simp
      rwa [htext, List.getLast?_append_of_ne_nil _ (hcommas hne)] at hc
  have hsplit : splitTernary? (a ++ '?' :: (x ++ ':' :: (u ++ commas ts))) =
      some (trim a, trim x, commas ts) := by
    rw [splitTernary?_conditional h.condition (by simp) h.paired h.asks h.answers h.condition_ne_nil
      h.branch_ne_nil (by rw [hlast]; exact hcommas hne), hlast]
  obtain ⟨hcondition, hbranch, hrest⟩ := length_lt_of_splitTernary? hsplit
  have hnoTernary : splitTernary? (stripOuterParens (commas ts)) = none := by
    rw [stripOuterParens_of_not_group htrim (bare_commas hts)]
    exact (nested_commas (fun t ht => (hts t ht).nested) (by decide)).splitTernary?_eq_none (by simp)
  rw [translateText, translateWithin, translateStep,
    stripOuterParens_of_not_group hwhole (h.condition.isGroup_append hane (by simp)), hsplit]
  dsimp only
  rw [branchText, branchText, branchText, hnoTernary, translateWithin_eq _ hcondition,
    translateWithin_eq _ hbranch, translateWithin_eq _ hrest, translateText_commas hnames hts]
  rfl

/-! ### Lists -/

/-- Codes that commas keep apart: one alone, or elements, the first of which may stand as the last
branch of a conditional. -/
inductive Listed (names : NameMap) : List (List Char) → Prop where
  | alone {t : List Char} : Sealed [] t → Listed names [t]
  | elements {ts : List (List Char)} : (∀ t ∈ ts, Element names t) → Listed names ts
  | asks {a x u t : List Char} {ts : List (List Char)} : Asks a x → Blank u →
      (∀ s ∈ t :: ts, Element names s) → Listed names ((a ++ '?' :: (x ++ ':' :: (u ++ t))) :: ts)

include hnames in
/-- A list is translated element by element. -/
theorem Listed.translateText_eq (h : Listed names ts) :
    Sealed [] (commas ts) ∧
      translateText names (commas ts) = commas (ts.map (translateText names)) := by
  cases h with
  | alone h => simpa [commas] using h
  | elements hts =>
    exact ⟨nested_commas (fun t ht => (hts t ht).nested.mono (by simp)) (by decide),
      translateText_commas hnames hts⟩
  | @asks a x u t ts hask hu hts =>
    have htext : commas ((a ++ '?' :: (x ++ ':' :: (u ++ t))) :: ts) =
        a ++ '?' :: (x ++ ':' :: (u ++ commas (t :: ts))) := by
      cases ts with
      | nil => simp [commas]
      | cons v ts => simp [commas_cons]
    have hone : ∀ s ∈ [t], Element names s := fun s hs => hts s (by simp at hs; simp [hs])
    have hfirst := translateText_asks hnames hask hu hone (by simp)
    have hcommas : commas [t] = t := by simp [commas]
    rw [hcommas] at hfirst
    constructor
    · have hquestion : Sealed [] ['?'] := sealed_of_ordinary (by decide)
      have hcolon : Sealed [] [':'] := sealed_of_ordinary (by decide)
      have hlast : Sealed [] (commas (t :: ts)) :=
        nested_commas (fun s hs => (hts s hs).nested.mono (by simp)) (by decide)
      rw [htext]
      exact (hask.condition.mono (by simp)).append (hquestion.append (hask.branch.append
        (hcolon.append ((sealed_of_blank hu (by simp)).append hlast))))
    · rw [htext, translateText_asks hnames hask hu hts (by simp), List.map_cons, List.map_cons, hfirst]
      cases ts with
      | nil => simp [commas]
      | cons v ts => simp [commas]

end

/-- Translating a list or the arguments of a call is translating what stands between the commas. -/
theorem translated_lists_distribute (declared : List String) {ts : List (List Char)}
    (h : Listed (.ofNames declared) ts) :
    translateText (.ofNames declared) ('[' :: (commas ts ++ [']'])) =
        '[' :: (commas (ts.map (translateText (.ofNames declared))) ++ [']']) ∧
      ∀ f : MemberPath, translateText (.ofNames declared) (f.text ++ '(' :: (commas ts ++ [')'])) =
        translateText (.ofNames declared) f.text ++
          '(' :: (commas (ts.map (translateText (.ofNames declared))) ++ [')']) := by
  obtain ⟨hnested, heq⟩ := h.translateText_eq (trims_translateWithin declared)
  refine ⟨?_, fun f => ?_⟩
  · rw [translateText_brackets hnested, heq]
  · rw [translateText_call (trims_translateWithin declared) f hnested, heq]

/-! ### Expressions as elements -/

theorem element_of_last {names : NameMap} {t : List Char} (hn : Sealed ['?'] t) (ht : Trimmed t)
    (hb : isGroup '(' t = false) (hl : ∃ c ∈ t.getLast?, endsOperand c = true ∧ c ≠ '\x60') :
    Element names t := by
  obtain ⟨c, hc, hend, hne⟩ := hl
  refine ⟨hn, ht, hb, ⟨c, hc, hend⟩, fun body hsuffix _ => ?_⟩
  obtain ⟨u, rfl⟩ := hsuffix
  refine absurd ?_ hne
  simpa [List.getLast?_append, List.getLast?_cons] using hc.symm

/-- Literals are elements, a template literal if something is written for it. -/
theorem element_literal {names : NameMap} {q : Char} {body : List Char} (hq : isQuote q = true)
    (hb : LiteralBody q body)
    (ht : q = '\x60' → '\x60' ∉ body ∧ translateText names (q :: (body ++ [q])) ≠ []) :
    Element names (q :: (body ++ [q])) where
  nested := sealed_literal hq hb
  trimmed := trimmed_literal hq body
  bare := isGroup_of_head (by rintro he; obtain rfl := Option.some.inj he; cases hq)
  last := ⟨q, by simp [List.getLast?_cons], by simp [endsOperand, hq]⟩
  literal body' hsuffix _ := by
    obtain ⟨u, hu⟩ := hsuffix
    have hlast : '\x60' = q := by simpa [List.getLast?_cons] using congrArg List.getLast? hu
    obtain ⟨hnone, hne⟩ := ht hlast.symm
    cases u with
    | nil =>
      rw [List.nil_append] at hu
      rwa [hu]
    | cons c u =>
      have hbody : (u ++ '\x60' :: body') ++ ['\x60'] = body ++ [q] := by
        simpa using (List.cons.inj hu).2
      rw [← hlast] at hbody
      refine absurd ?_ hnone
      rw [← List.append_cancel_right hbody]
      simp

/-- Member paths, texts and numbers, negated, compared and joined, with parentheses inside. -/
theorem element_of_prints (names : NameMap) {e : Logic} {t : List Char} (h : Logic.Prints 1 e t) :
    Element names t := by
  have hname {c : Char} (hc : isIdentifierChar c = true) : endsOperand c = true ∧ c ≠ '\x60' :=
    ⟨by simp [endsOperand, hc], ne_of_isIdentifierChar hc (by decide)⟩
  have hlast {k : Nat} {e : Logic} {t : List Char} (h : Logic.Prints k e t) :
      ∃ c ∈ t.getLast?, endsOperand c = true ∧ c ≠ '\x60' := by
    induction h with
    | path p =>
      obtain ⟨c, hc, hend⟩ := (element_of_path names p).last
      refine ⟨c, hc, hend, ?_⟩
      rintro rfl
      rcases p.char_of_mem (List.mem_of_mem_getLast? hc) with h | h | h <;> cases h
    | text hb => exact ⟨'\x27', by simp [List.getLast?_cons], by decide, by decide⟩
    | int n =>
      have hdigits (m : Nat) : ∃ c ∈ (Nat.toDigits 10 m).getLast?, isIdentifierChar c = true := by
        have hne : Nat.toDigits 10 m ≠ [] := by simp
        refine ⟨_, List.getLast?_eq_some_getLast hne, ?_⟩
        have hdigit := Nat.isDigit_of_mem_toDigits (by decide) (by decide) (List.getLast_mem hne)
        simp [isIdentifierChar, Char.isAlphanum, hdigit]
      rw [Number.spelled_eq]
      split
      · obtain ⟨c, hc, h⟩ := hdigits n.toNat
        exact ⟨c, hc, hname h⟩
      · obtain ⟨c, hc, h⟩ := hdigits (-n).toNat
        exact ⟨c, by simp [List.getLast?_cons, Option.mem_def.1 hc], hname h⟩
    | not _ _ _ ih =>
      obtain ⟨c, hc, h⟩ := ih
      exact ⟨c, by simp [List.getLast?_cons, List.getLast?_append, Option.mem_def.1 hc], h⟩
    | binary _ _ _ _ _ _ ihb =>
      obtain ⟨c, hc, h⟩ := ihb
      exact ⟨c, by simp [List.getLast?_append, Option.mem_def.1 hc], h⟩
    | paren _ _ _ _ _ =>
      exact ⟨')', by simp [List.getLast?_cons, List.getLast?_append], by decide, by decide⟩
  exact element_of_last (h.sealed.mono (by simp)) h.edged.trimmed h.not_group (hlast h)

/-! ### Two lists -/

/-- A negation, a template literal and a text as arguments. -/
theorem arguments_of_clsx_translated_one_by_one :
    Listed (.ofNames ["loop"]) ["!loop && b".toList, "\x60h$\x7blevel\x7d\x60".toList, "\x22a\x22".toList] ∧
      translateText (.ofNames ["loop"]) "clsx(!loop && b, \x60h$\x7blevel\x7d\x60, \x22a\x22)".toList =
        "clsx(not loop_attr and b, ('h' ~ level), 'a')".toList := by
  have hnot : Logic.Prints 2 (.not (.path ⟨"loop".toList, [], rfl, by simp⟩)) ('!' :: ([] ++ "loop".toList)) :=
    .not (by decide) (Logic.prints_path (by decide)) blank_nil
  have hand : Logic.Prints 1 (.binary .and _ (.path ⟨['b'], [], rfl, by simp⟩))
      ('!' :: ([] ++ "loop".toList) ++ ([' '] ++ (BinaryOp.and.code ++ ([' '] ++ ['b'])))) :=
    .binary (by decide) hnot (Logic.prints_path (by decide)) blank_space blank_space
  have hfirst : Element (.ofNames ["loop"]) "!loop && b".toList := element_of_prints _ hand
  have hlevel : LiteralBody '\x60' "h$\x7blevel\x7d".toList := literalBody_of_plain (by decide) (by decide)
  have hsecond : Element (.ofNames ["loop"]) "\x60h$\x7blevel\x7d\x60".toList :=
    element_literal (by decide) hlevel fun _ => ⟨by decide, by decide +kernel⟩
  have hletter : LiteralBody '\x22' ['a'] := literalBody_of_plain (by decide) (by decide)
  have hthird : Element (.ofNames ["loop"]) "\x22a\x22".toList :=
    element_literal (by decide) hletter fun h => absurd h (by decide)
  have hlisted : Listed (.ofNames ["loop"])
      ["!loop && b".toList, "\x60h$\x7blevel\x7d\x60".toList, "\x22a\x22".toList] :=
    .elements (List.forall_mem_cons.2 ⟨hfirst, List.forall_mem_cons.2 ⟨hsecond,
      List.forall_mem_singleton.2 hthird⟩⟩)
  have hcall := (translated_lists_distribute ["loop"] hlisted).2 ⟨"clsx".toList, [], rfl, by simp⟩
  exact ⟨hlisted, hcall.trans (by decide +kernel)⟩

/-- A conditional behind another element takes it into its condition. -/
theorem second_conditional_takes_the_first_element :
    translateText (.ofNames []) "[a, b ? c : d]".toList = "[c if a, b else d]".toList ∧
      '[' :: (commas (["a".toList, "b ? c : d".toList].map (translateText (.ofNames []))) ++ [']']) =
        "[a, c if b else d]".toList := by
  decide +kernel

end JsxToJinja.Jinja
