import JsxToJinja.Proofs.Classes.Conditions

/-! Template literals with one name between plain texts: what they are once the name has a value, how
they are told from other texts, and how a value is put in the place of the name. -/
namespace JsxToJinja
open JsxToJinja.Text JsxToJinja.Code

/-! ### Texts of values -/

/-- Text of a number in code: without an exponent while the leading digit stands for less than
10 ^ 21 and for 10 ^ -6 at least. -/
def Double.shown (x : Double) : String :=
  if x.magnitude = 0 then "0" else
    let (d, unit) := dropZeros 20 (shortest x.magnitude).1 (shortest x.magnitude).2
    let digits := (toString d).toList
    let lead := unit + digits.length - 1
    let (whole, part) := digits.splitAt (lead.toNat + 1)
    let (first, others) := digits.splitAt 1
    (if x.negative then "-" else "") ++
      if 0 ≤ unit ∧ lead ≤ 20 then String.ofList digits ++ zeros unit.toNat
      else if 0 ≤ lead ∧ lead ≤ 20 then String.ofList whole ++ "." ++ String.ofList part
      else if -6 ≤ lead ∧ lead < 0 then "0." ++ zeros ((-lead).toNat - 1) ++ String.ofList digits
      else String.ofList first ++ (if others.isEmpty then "" else "." ++ String.ofList others) ++ "e" ++
        (if lead < 0 then "-" else "+") ++ toString lead.natAbs

def Json.shown : Json → String
  | .str s => s
  | .num n => n.asDouble.shown
  | v => v.compact

theorem Double.shown_congr {a b : Double} (h : a.same b = true) : a.shown = b.shown := by
  obtain ⟨na, ma⟩ := a
  obtain ⟨nb, mb⟩ := b
  simp only [same, Bool.and_eq_true, Bool.or_eq_true, beq_iff_eq] at h
  obtain ⟨rfl, rfl | rfl⟩ := h
  · rfl
  · simp [shown]

/-- Values that are equal are shown alike. -/
theorem Json.shown_of_strictEquals {v w : Json} (h : v.strictEquals w = true) : v.shown = w.shown := by
  cases v with
  | num =>
    cases w with
    | num => exact Double.shown_congr h
    | _ => cases h
  | _ => cases w <;> simp_all [strictEquals, shown]

/-! ### Literals with one name -/

/-- Text of a template literal that stands for itself. -/
structure IsPlain (t : List Char) : Prop where
  no_escape : '\\' ∉ t
  no_tick : '\x60' ∉ t
  no_name : ¬ interpolation <:+: t

structure Template where
  name : String
  front : List Char
  back : List Char
  /-- Blanks in front of the name. -/
  left : List Char
  /-- Blanks behind the name. -/
  right : List Char
  identifier : isIdentifier name.toList = true
  no_word : name ∉ valueWords
  plain_front : IsPlain front
  plain_back : IsPlain back
  blank_left : Blank left
  blank_right : Blank right

namespace Template
variable (T : Template)

def named : List Char := T.left ++ (T.name.toList ++ T.right)

def inner : List Char := T.front ++ '$' :: '\x7b' :: (T.named ++ '\x7d' :: T.back)

def text : List Char := '\x60' :: (T.inner ++ ['\x60'])

def value (v : Json) : String := String.ofList (T.front ++ (v.shown.toList ++ T.back))

theorem not_mem_named {c : Char} (hb : isBlank c = false) (hi : isIdentifierChar c = false) :
    c ∉ T.named := by
  simp only [named, List.mem_append, not_or]
  have hblank {p : List Char} (hp : Blank p) : c ∉ p := fun hm => by simp [hp c hm] at hb
  exact ⟨hblank T.blank_left, fun hm => by simp [isIdentifierChar_of_mem T.identifier hm] at hi,
    hblank T.blank_right⟩

theorem trim_named : trim T.named = T.name.toList :=
  trim_pad T.blank_left (trimmed_of_isIdentifier T.identifier) T.blank_right

theorem sealed_named : Sealed [] T.named := by
  have hpad {p : List Char} (hp : Blank p) : Sealed [] p := sealed_of_blank hp (by simp)
  exact (hpad T.blank_left).append ((sealed_name (by simp) T.identifier).append (hpad T.blank_right))

theorem literalBody_inner : LiteralBody '\x60' T.inner := by
  refine literalBody_of_plain ?_ ?_
  · simp [inner, T.plain_front.no_escape, T.plain_back.no_escape,
      T.not_mem_named (c := '\\') (by decide) (by decide)]
  · simp [inner, T.plain_front.no_tick, T.plain_back.no_tick,
      T.not_mem_named (c := '\x60') (by decide) (by decide)]

theorem singleLiteral?_text : singleLiteral? T.text = some '\x60' :=
  singleLiteral?_literal (by decide) T.literalBody_inner

theorem trimmed_text : Trimmed T.text := trimmed_literal (by decide) T.inner

theorem groupInner_text : groupInner T.text = T.inner := groupInner_bracket _ _ _

end Template

/-! ### Plain texts -/

/-- No name starts inside a plain text, nor where one is about to start. -/
theorem IsPlain.not_starts {c : Char} {t rest : List Char} (h : IsPlain (c :: t))
    (hr : rest.head? ≠ some '\x7b') : startsWith (c :: (t ++ rest)) interpolation = false := by
  have hno := h.no_name
  rw [← Bool.not_eq_true, startsWith, List.isPrefixOf_iff_prefix]
  intro hp
  cases t with
  | nil =>
    cases rest with
    | nil => exact absurd hp (by simp [interpolation])
    | cons d r =>
      simp only [interpolation, List.nil_append, List.cons_prefix_cons] at hp
      exact hr (by rw [← hp.2.1]; rfl)
  | cons d t =>
    simp only [interpolation, List.cons_append, List.cons_prefix_cons] at hp
    refine hno ⟨[], t, ?_⟩
    rw [← hp.1, ← hp.2.1]
    rfl

theorem IsPlain.tail {c : Char} {t : List Char} (h : IsPlain (c :: t)) : IsPlain t where
  no_escape := fun hm => h.no_escape (by simp [hm])
  no_tick := fun hm => h.no_tick (by simp [hm])
  no_name := fun hi => h.no_name (hi.trans (List.suffix_cons c t).isInfix)

theorem contains_of_infix {n t : List Char} (h : n <:+: t) : contains t n = true := by
  induction t with
  | nil => simp [contains, find?, List.infix_nil.1 h]
  | cons c t ih =>
    rw [contains, find?]
    split
    · rfl
    · rename_i hs
      rcases List.infix_cons_iff.1 h with h | h
      · exact absurd (List.isPrefixOf_iff_prefix.2 h) hs
      · simpa [contains] using ih h

theorem partsFrom_plain {w rest : List Char} (h : IsPlain w) (hr : rest.head? ≠ some '\x7b')
    (read : List Char) : partsFrom 0 read (w ++ rest) = partsFrom 0 (w.reverse ++ read) rest := by
  induction w generalizing read with
  | nil => rfl
  | cons c w ih =>
    rw [List.cons_append, partsFrom, if_neg (ne_true_of_eq_false (h.not_starts hr)), ih h.tail]
    simp

theorem partsFrom_skip (w rest read : List Char) :
    partsFrom w.length read (w ++ rest) = partsFrom 0 read rest := by
  induction w with
  | nil => rfl
  | cons c w ih => exact ih

/-- Code between its braces is one part, and reading goes on behind it. -/
theorem partsFrom_code {w : List Char} (h : Sealed [] w) (rest read : List Char) :
    partsFrom 0 read ('$' :: '\x7b' :: (w ++ '\x7d' :: rest)) =
      (partsFrom 0 [] rest).map fun ps => flushText read (.expr (String.ofList (trim w)) :: ps) := by
  have hstart : startsWith ('$' :: '\x7b' :: (w ++ '\x7d' :: rest)) interpolation = true := by
    simp [startsWith, interpolation]
  have hlength : balancedLength? ('\x7b' :: (w ++ '\x7d' :: rest)) = some (w.length + 1) :=
    balancedLength?_group rfl h rest
  have hcode : slice ('\x7b' :: (w ++ '\x7d' :: rest)) 1 (w.length + 1) = w := by simp [slice]
  have hskip : partsFrom (w.length + 1 + 1) [] ('\x7b' :: (w ++ '\x7d' :: rest)) =
      partsFrom 0 [] rest := by
    simpa using partsFrom_skip ('\x7b' :: (w ++ ['\x7d'])) rest []
  rw [partsFrom, if_pos hstart, hlength]
  simp only [Option.bind_eq_bind, Option.bind_some, hskip, hcode]
  cases partsFrom 0 [] rest <;> rfl

theorem fillTemplateFrom_plain {w rest : List Char} (h : IsPlain w) (hr : rest.head? ≠ some '\x7b')
    (value : List Char) : fillTemplateFrom value 0 (w ++ rest) = w ++ fillTemplateFrom value 0 rest := by
  induction w with
  | nil => rfl
  | cons c w ih =>
    have hno : startsWith (c :: (w ++ rest)) ['$', '\x7b'] = false := h.not_starts hr
    rw [List.cons_append, fillTemplateFrom, if_neg (ne_true_of_eq_false hno), ih h.tail]
    rfl

theorem fillTemplateFrom_skip (w rest value : List Char) :
    fillTemplateFrom value w.length (w ++ rest) = fillTemplateFrom value 0 rest := by
  induction w with
  | nil => rfl
  | cons c w ih => exact ih

namespace Template
variable (T : Template)

theorem isTemplateLiteral_text : isTemplateLiteral T.text = true := by
  have hname : interpolation <:+: T.text :=
    ⟨'\x60' :: T.front, T.named ++ ('\x7d' :: (T.back ++ ['\x60'])), by simp [text, inner, interpolation]⟩
  simp [isTemplateLiteral, T.singleLiteral?_text, contains_of_infix hname]

theorem stringLiteral?_text : stringLiteral? T.text = none := by
  have hname : interpolation <:+: T.inner :=
    ⟨T.front, T.named ++ '\x7d' :: T.back, by simp [inner, interpolation]⟩
  simp [stringLiteral?, T.trimmed_text.trim_eq, T.singleLiteral?_text, T.groupInner_text,
    contains_of_infix hname]

theorem stripOuterParens_text : stripOuterParens T.text = T.text :=
  stripOuterParens_of_not_group T.trimmed_text (isGroup_of_head (by simp [text]))

/-- The literal comes apart at its name. -/
theorem templateParts?_text : templateParts? T.text =
    some (flushText T.front.reverse (.expr T.name :: flushText T.back.reverse [])) := by
  have hback : partsFrom 0 [] T.back = some (flushText T.back.reverse []) := by
    have h : partsFrom 0 [] (T.back ++ []) = _ := partsFrom_plain T.plain_back (by simp) []
    simpa [partsFrom] using h
  simp only [templateParts?, T.trimmed_text.trim_eq, T.singleLiteral?_text, BEq.rfl, if_true,
    T.groupInner_text]
  rw [inner, partsFrom_plain T.plain_front (by simp), List.append_nil, partsFrom_code T.sealed_named,
    hback, Option.map_some, T.trim_named, String.ofList_toList]

/-- The name and the pattern are found. -/
theorem templateVariable?_text (hp : ¬ propsHead <:+: T.text) :
    templateVariable? T.text = some (T.name, String.ofList T.inner) := by
  have hin : T.inner <:+: T.text := ⟨['\x60'], ['\x60'], by simp [text]⟩
  have hpattern : stripProps T.inner = T.inner := stripProps_of_not_infix fun hi => hp (hi.trans hin)
  rw [templateVariable?, T.templateParts?_text]
  simp only [flushText]
  split <;> split <;>
    simp [stripProps_of_isIdentifier T.identifier, T.identifier, T.trimmed_text.trim_eq,
      T.groupInner_text, hpattern]

/-- The pattern with a text in the place of the name. -/
theorem fillTemplate_inner (v : String) : fillTemplate (String.ofList T.inner) v =
    String.ofList (T.front ++ (v.toList ++ T.back)) := by
  have hstart : startsWith ('$' :: '\x7b' :: (T.named ++ '\x7d' :: T.back)) ['$', '\x7b'] = true := by
    simp [startsWith]
  have hclose : find? ['\x7d'] ('\x7b' :: (T.named ++ '\x7d' :: T.back)) =
      some ('\x7b' :: T.named).length := by
    have hno : '\x7d' ∉ '\x7b' :: T.named := by
      simp [T.not_mem_named (c := '\x7d') (by decide) (by decide)]
    exact find?_of_notMem hno T.back
  have hskip : fillTemplateFrom v.toList (('\x7b' :: T.named).length + 1)
      ('\x7b' :: (T.named ++ '\x7d' :: T.back)) = T.back := by
    have hback : fillTemplateFrom v.toList 0 (T.back ++ []) = _ :=
      fillTemplateFrom_plain T.plain_back (by simp) v.toList
    have := fillTemplateFrom_skip ('\x7b' :: (T.named ++ ['\x7d'])) T.back v.toList
    simp only [List.append_nil, fillTemplateFrom] at hback
    simpa [hback] using this
  rw [fillTemplate, String.toList_ofList, inner, fillTemplateFrom_plain T.plain_front (by simp),
    fillTemplateFrom, if_pos hstart, hclose]
  simp only [hskip]

end Template

end JsxToJinja
