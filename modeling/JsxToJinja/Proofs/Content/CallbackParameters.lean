import JsxToJinja.Proofs.Content.WrittenCode

/-! Parameters of the functions that iterations call: the item, or fields taken out of it under names of
their own, with types and an index behind. -/
namespace JsxToJinja
open JsxToJinja.Text JsxToJinja.Code
open JsxToJinja.Qualified (Identifier Around)

theorem Code.balancedInner?_sealed {inner : List Char} (h : Sealed [] inner) (rest : List Char) :
    balancedInner? ('\x7b' :: (inner ++ '\x7d' :: rest)) 0 = some inner := by
  have hclose : closingFor? '\x7b' = some '\x7d' := rfl
  have hlen := balancedLength?_group hclose h rest
  have hslice := slice_append_left ['\x7b'] inner ('\x7d' :: rest)
  rw [balancedInner?, balancedEnd?, List.drop_zero, hlen]
  simpa [Nat.add_comm] using hslice

namespace Content

/-- A text in which every comma stands in brackets or in a literal, without blanks around it. -/
structure OneText (t : List Char) : Prop where
  sealed : Sealed [','] t
  trimmed : Trimmed t
  ne_nil : t ≠ []

theorem oneText_of_isIdentifier {t : List Char} (h : isIdentifier t = true) : OneText t :=
  ⟨sealed_of_nameChars (fun _ hc => isIdentifierChar_of_mem h hc) (by decide), trimmed_of_isIdentifier h,
    ne_nil_of_isIdentifier h⟩

def signed (around : Around) (sign : Char) (t : List Char) : List Char :=
  around.before.chars ++ sign :: (around.after.chars ++ t)

/-- Parameters with a sign between them stay one parameter. -/
theorem OneText.signed {s t : List Char} (hs : OneText s) (ht : OneText t) {sign : Char}
    (hsign : sign ≠ ',') (ho : isOrdinary sign = true) (around : Around) :
    OneText (s ++ signed around sign t) := by
  have hcomma : ∀ c ∈ [','], isSign c = true := by decide
  have htext : s ++ Content.signed around sign t =
      s ++ ((around.before.chars ++ sign :: around.after.chars) ++ t) := by simp [Content.signed]
  refine ⟨?_, ?_, ?_⟩
  · exact hs.sealed.append ((sealed_pad hcomma around.before.blank).append
      (.plain (by simpa using hsign) ho ((sealed_pad hcomma around.after.blank).append ht.sealed)))
  · rw [htext]
    exact hs.trimmed.between ht.trimmed hs.ne_nil ht.ne_nil _
  · simp [hs.ne_nil]

def withSigned (s : List Char) (sign : Char) (behind : Option (Around × List Char)) : List Char :=
  s ++ behind.elim [] fun b => signed b.1 sign b.2

theorem OneText.withSigned {s : List Char} (hs : OneText s) {sign : Char} (hsign : sign ≠ ',')
    (ho : isOrdinary sign = true) {behind : Option (Around × List Char)}
    (hb : ∀ b ∈ behind, OneText b.2) : OneText (withSigned s sign behind) := by
  cases behind with
  | none => simpa [Content.withSigned] using hs
  | some b => exact hs.signed (hb b rfl) hsign ho b.1

/-- Up to a sign that stops there is the name, with what stands in front of the sign. -/
theorem trim_takeWhile_withSigned {s : List Char} (h : isIdentifier s = true) {stop : Char → Bool}
    (hs : ∀ c, isIdentifierChar c = true ∨ isBlank c = true → stop c = true) {sign : Char}
    (hsign : stop sign = false) (behind : Option (Around × List Char)) (rest : List Char)
    (hrest : behind = none → rest = []) :
    trim ((withSigned s sign behind ++ rest).takeWhile stop) = s := by
  have hword : ∀ c ∈ s, stop c = true := fun c hc => hs c (.inl (isIdentifierChar_of_mem h hc))
  have htrim := (trimmed_of_isIdentifier h).trim_eq
  cases behind with
  | none =>
    have hall : (s ++ []).takeWhile stop = s ++ [].takeWhile stop := List.takeWhile_append_of_pos hword
    simp only [List.append_nil, List.takeWhile_nil] at hall
    simp [withSigned, hrest rfl, hall, htrim]
  | some b =>
    have hgap : ∀ c ∈ b.1.before.chars, stop c = true := fun c hc => hs c (.inr (b.1.before.blank c hc))
    have htext : withSigned s sign (some b) ++ rest =
        s ++ (b.1.before.chars ++ sign :: (b.1.after.chars ++ b.2 ++ rest)) := by
      simp [withSigned, signed]
    rw [htext, List.takeWhile_append_of_pos hword, List.takeWhile_append_of_pos hgap,
      List.takeWhile_cons_of_neg (by simp [hsign]), List.append_nil]
    simpa using trim_pad blank_nil (trimmed_of_isIdentifier h) b.1.before.blank

theorem untyped_withSigned (x : Identifier) (type : Option (Around × List Char)) :
    untyped (withSigned x.chars ':' type) = String.ofList x.chars := by
  have hstop (c : Char) (hc : isIdentifierChar c = true ∨ isBlank c = true) : (c != ':') = true := by
    rw [bne_iff_ne]
    rintro rfl
    revert hc
    decide
  have hcolon : (':' != ':') = false := rfl
  have hname := trim_takeWhile_withSigned x.valid hstop hcolon type [] fun _ => rfl
  rw [List.append_nil] at hname
  rw [untyped, hname]

/-! ### Fields -/

/-- A field taken out of the item, under its own name or another one, and a value for a missing one. -/
structure TakenField where
  key : Identifier
  renamed : Option (Around × Identifier) := none
  fallback : Option (Around × List Char) := none

namespace TakenField

def name (f : TakenField) : Identifier := f.renamed.elim f.key (·.2)

def text (f : TakenField) : List Char :=
  withSigned (withSigned f.key.chars ':' (f.renamed.map fun r => (r.1, r.2.chars))) '=' f.fallback

/-- The value for a missing field is one text. -/
def Fits (f : TakenField) : Prop := ∀ d ∈ f.fallback, OneText d.2

variable {f : TakenField}

theorem Fits.oneText (h : f.Fits) : OneText f.text := by
  have hkey : OneText (withSigned f.key.chars ':' (f.renamed.map fun r => (r.1, r.2.chars))) := by
    refine (oneText_of_isIdentifier f.key.valid).withSigned (by decide) (by decide) fun b hb => ?_
    obtain ⟨r, -, rfl⟩ := Option.map_eq_some_iff.1 hb
    exact oneText_of_isIdentifier r.2.valid
  exact hkey.withSigned (by decide) (by decide) h

/-- In front of the signs stands the name that the field has in the item. -/
theorem trim_takeWhile_text (f : TakenField) :
    trim (f.text.takeWhile fun c => c != ':' && c != '=') = f.key.chars := by
  have hstop (c : Char) (hc : isIdentifierChar c = true ∨ isBlank c = true) :
      (c != ':' && c != '=') = true := by
    have hne {d : Char} (hd : isIdentifierChar d = false) (hb : isBlank d = false) : c ≠ d := by
      rintro rfl
      simp [hd, hb] at hc
    simp [hne (d := ':') (by decide) (by decide), hne (d := '=') (by decide) (by decide)]
  cases hr : f.renamed with
  | none =>
    have htext : f.text = withSigned f.key.chars '=' f.fallback ++ [] := by
      simp [text, hr, withSigned]
    rw [htext]
    exact trim_takeWhile_withSigned f.key.valid hstop (by decide) _ [] fun _ => rfl
  | some r =>
    have htext : f.text = withSigned f.key.chars ':' (some (r.1, r.2.chars)) ++
        f.fallback.elim [] fun d => signed d.1 '=' d.2 := by
      simp [text, hr, withSigned]
    rw [htext]
    exact trim_takeWhile_withSigned f.key.valid hstop (by decide) _ _ fun h => nomatch h

end TakenField

/-! ### Parameters -/

/-- What the item is called, or what is taken out of it. -/
inductive Pattern where
  | named (x : Identifier)
  | fields (fs : List (Around × TakenField))

namespace Pattern

def text : Pattern → List Char
  | named x => x.chars
  | fields fs => '\x7b' :: ([','].intercalate (fs.map fun f => padded f.1 f.2.text) ++ ['\x7d'])

def Fits : Pattern → Prop
  | named _ => True
  | fields fs => ∀ f ∈ fs, f.2.Fits

theorem Fits.sealed_fields {fs : List (Around × TakenField)} (h : (fields fs).Fits) :
    Sealed [] ([','].intercalate (fs.map fun f => padded f.1 f.2.text)) := by
  induction fs with
  | nil => exact .nil
  | cons f fs ih =>
    obtain ⟨hf, hfs⟩ := List.forall_mem_cons.1 h
    have hfirst : Sealed [] (padded f.1 f.2.text) :=
      Written.sealed_padded f.1 (by simp) (hf.oneText.sealed.mono (by simp))
    have hrest := ih hfs
    cases fs with
    | nil => simpa using hfirst
    | cons g fs =>
      rw [List.map_cons] at hrest ⊢
      rw [List.map_cons, List.intercalate_cons_cons, List.append_assoc]
      exact hfirst.append (.plain (by simp) (by decide) hrest)

theorem Fits.oneText {p : Pattern} (h : p.Fits) : OneText p.text := by
  cases p with
  | named x => exact oneText_of_isIdentifier x.valid
  | fields fs =>
    exact ⟨.bracket (by decide) h.sealed_fields, trimmed_cons_concat (by decide) (by decide) _,
      by simp [text]⟩

def names : Pattern → List Identifier
  | named x => [x]
  | fields fs => fs.map (·.2.name)

def keys : Pattern → List String
  | named _ => []
  | fields fs => fs.map fun f => String.ofList f.2.key.chars

def itemVar : Pattern → String
  | named x => String.ofList x.chars
  | fields _ => "item"

end Pattern

/-- A pattern with its type, and an index with its own. -/
structure ParameterList where
  pattern : Pattern
  type : Option (Around × List Char) := none
  index : Option (Around × Identifier × Option (Around × List Char)) := none

namespace ParameterList

def first (l : ParameterList) : List Char := withSigned l.pattern.text ':' l.type

def second? (l : ParameterList) : Option (Around × List Char) :=
  l.index.map fun i => (i.1, withSigned i.2.1.chars ':' i.2.2)

def text (l : ParameterList) : List Char := withSigned l.first ',' l.second?

structure Fits (l : ParameterList) : Prop where
  pattern : l.pattern.Fits
  type : ∀ t ∈ l.type, OneText t.2
  index : ∀ i ∈ l.index, ∀ t ∈ i.2.2, OneText t.2

variable {l : ParameterList}

theorem Fits.first (h : l.Fits) : OneText l.first :=
  h.pattern.oneText.withSigned (by decide) (by decide) h.type

theorem Fits.second (h : l.Fits) : ∀ s ∈ l.second?, OneText s.2 := by
  intro s hs
  obtain ⟨i, hi, rfl⟩ := Option.map_eq_some_iff.1 hs
  exact (oneText_of_isIdentifier i.2.1.valid).withSigned (by decide) (by decide) (h.index i hi)

/-- The parameters of a callback nest, and no blank stands at their ends. -/
theorem Fits.nests (h : l.Fits) : Sealed [] l.text ∧ Trimmed l.text := by
  have hpad {g : List Char} (hg : Blank g) : Sealed [] g := sealed_of_blank hg (by simp)
  have hfirst := h.first
  rw [text]
  cases hs : l.second? with
  | none => simpa [withSigned] using And.intro (hfirst.sealed.mono (by simp)) hfirst.trimmed
  | some s =>
    have hone := h.second s hs
    have htext : withSigned l.first ',' (some s) =
        l.first ++ ((s.1.before.chars ++ ',' :: s.1.after.chars) ++ s.2) := by
      simp [signed, withSigned]
    rw [htext]
    exact ⟨(hfirst.sealed.mono (by simp)).append (((hpad s.1.before.blank).append
      (.plain (by simp) (by decide) (hpad s.1.after.blank))).append (hone.sealed.mono (by simp))),
      hfirst.trimmed.between hone.trimmed hfirst.ne_nil hone.ne_nil _⟩

/-- The parameters come apart at the comma. -/
theorem Fits.split (h : l.Fits) :
    splitTopLevel l.text [','] = l.first :: (l.second?.map (·.2)).toList := by
  have hpiece {t u v : List Char} (h : OneText t) (hu : Blank u) (hv : Blank v) :
      IsPiece ',' (u ++ (t ++ v)) t := .pad h.sealed h.trimmed h.ne_nil (by decide) hu hv
  have hcut : Cutting [','] ',' := ⟨by simp, by decide, by decide⟩
  rw [text]
  cases hs : l.second? with
  | none =>
    have hpieces := splitTopLevel_pieces hcut (List.forall_mem_nil _)
      (.cons (hpiece h.first blank_nil blank_nil) .nil)
    simpa [withSigned] using hpieces
  | some s =>
    have hpieces := splitTopLevel_pieces hcut (List.forall_mem_nil _)
      (.cons (hpiece h.first blank_nil s.1.before.blank)
        (.cons (hpiece (h.second s hs) s.1.after.blank blank_nil) .nil))
    have htext : withSigned l.first ',' (some s) = [','].intercalate
        [[] ++ (l.first ++ s.1.before.chars), s.1.after.chars ++ (s.2 ++ [])] := by
      simp [signed, withSigned]
    rw [htext]
    exact hpieces

/-- Parentheses around the parameters are taken off. -/
theorem Fits.strip (h : l.Fits) : stripOuterParens l.text = l.text := by
  refine stripOuterParens_of_not_group h.nests.2 (isGroup_of_head ?_)
  rw [text, withSigned, ParameterList.first, withSigned, List.append_assoc]
  cases l.pattern with
  | named x =>
    obtain ⟨c, s, hs⟩ := List.exists_cons_of_ne_nil (ne_nil_of_isIdentifier x.valid)
    have hc : isIdentifierChar c = true := isIdentifierChar_of_mem x.valid (by simp [hs])
    simpa [Pattern.text, hs] using ne_of_isIdentifierChar hc (d := '(') (by decide)
  | fields fs => simp [Pattern.text]

/-- Fields come apart at the commas between them. -/
theorem split_fields {fs : List (Around × TakenField)} (h : (Pattern.fields fs).Fits) :
    splitTopLevel ([','].intercalate (fs.map fun f => padded f.1 f.2.text)) [','] =
      fs.map fun f => f.2.text := by
  refine splitTopLevel_pieces ⟨by simp, by decide, by decide⟩ (by simp) ?_
  induction fs with
  | nil => exact .nil
  | cons f fs ih =>
    obtain ⟨hf, hfs⟩ := List.forall_mem_cons.1 h
    have hone := hf.oneText
    exact .cons (.pad hone.sealed hone.trimmed hone.ne_nil (by decide) f.1.before.blank f.1.after.blank)
      (ih hfs)

/-- The first of the parameters says what the item is called and what is taken out of it. -/
theorem Fits.pattern? (h : l.Fits) : pattern? l.first = some (l.pattern.itemVar, l.pattern.keys) := by
  have hpattern := h.pattern
  rw [Content.pattern?, ParameterList.first]
  generalize l.pattern = p at hpattern
  cases p with
  | named x =>
    have hhead : ((withSigned x.chars ':' l.type).head? == some '\x7b') = false := by
      obtain ⟨c, s, hs⟩ := List.exists_cons_of_ne_nil (ne_nil_of_isIdentifier x.valid)
      have hc : isIdentifierChar c = true := isIdentifierChar_of_mem x.valid (by simp [hs])
      simpa [withSigned, hs] using ne_of_isIdentifierChar hc (d := '\x7b') (by decide)
    rw [Pattern.text, hhead, if_neg Bool.false_ne_true, untyped_withSigned]
    rfl
  | fields fs =>
    have hinner := balancedInner?_sealed hpattern.sealed_fields (l.type.elim [] fun b => signed b.1 ':' b.2)
    have htext : withSigned (Pattern.fields fs).text ':' l.type =
        '\x7b' :: ([','].intercalate (fs.map fun f => padded f.1 f.2.text) ++
          '\x7d' :: l.type.elim [] fun b => signed b.1 ':' b.2) := by
      simp [withSigned, Pattern.text]
    have hnames : ((fs.map fun f => f.2.text).map fun n =>
        trim (n.takeWhile fun c => c != ':' && c != '=')) = fs.map fun f => f.2.key.chars := by
      simp [TakenField.trim_takeWhile_text, Function.comp_def]
    have hall : (fs.map fun f => f.2.key.chars).filter isIdentifier = fs.map fun f => f.2.key.chars := by
      refine List.filter_eq_self.2 fun key hkey => ?_
      obtain ⟨f, -, rfl⟩ := List.mem_map.1 hkey
      exact f.2.key.valid
    rw [htext, hinner, List.head?_cons, beq_self_eq_true, if_pos rfl, Option.bind_eq_bind,
      Option.bind_some, split_fields hpattern, hnames]
    dsimp only
    rw [hall, List.map_map]
    rfl

/-- From its parameters a callback is known: the variable, the fields taken out and the index. -/
theorem Fits.binders? (h : l.Fits) {t : List Char} (hstrip : stripOuterParens t = l.text) :
    binders? t = some (l.pattern.itemVar, l.pattern.keys,
      l.index.map fun i => String.ofList i.2.1.chars) := by
  have hindex : ((l.first :: (l.second?.map (·.2)).toList)[1]?).map untyped =
      l.index.map fun i => String.ofList i.2.1.chars := by
    rw [second?]
    cases l.index with
    | none => rfl
    | some i => simp [untyped_withSigned]
  rw [Content.binders?, hstrip, h.split]
  simp only [List.head?_cons, Option.bind_eq_bind, Option.bind_some, h.pattern?, hindex]

end ParameterList

/-- One name alone, or a list in parentheses. -/
inductive Parameters where
  | bare (around : Around) (x : Identifier)
  | listed (outer inner : Around) (list : ParameterList)

namespace Parameters

def list : Parameters → ParameterList
  | bare _ x => { pattern := .named x }
  | listed _ _ l => l

def text : Parameters → List Char
  | bare around x => padded around x.chars
  | listed outer inner l =>
    padded outer ('(' :: (inner.before.chars ++ (l.text ++ (inner.after.chars ++ [')']))))

def Fits (p : Parameters) : Prop := p.list.Fits

def itemVar (p : Parameters) : String := p.list.pattern.itemVar

def keys (p : Parameters) : List String := p.list.pattern.keys

def names (p : Parameters) : List Identifier :=
  p.list.pattern.names ++ (p.list.index.map (·.2.1)).toList

variable {p : Parameters}

theorem Fits.strip (h : p.Fits) : stripOuterParens p.text = p.list.text := by
  cases p with
  | bare around x =>
    have htext : (list (bare around x)).text = x.chars := by
      simp [list, ParameterList.text, ParameterList.first, ParameterList.second?, withSigned,
        Pattern.text]
    have hsame := ParameterList.Fits.strip h
    rw [htext] at hsame ⊢
    rw [text, padded, stripOuterParens_pad around.before.blank (trimmed_of_isIdentifier x.valid)
      around.after.blank, hsame]
  | listed outer inner l =>
    have hl : l.Fits := h
    have htrim : Trimmed ('(' :: (inner.before.chars ++ (l.text ++ (inner.after.chars ++ [')'])))) := by
      rw [paren_text]
      exact trimmed_cons_concat (by decide) (by decide) _
    rw [text, padded, stripOuterParens_pad outer.before.blank htrim outer.after.blank,
      stripOuterParens_paren hl.nests.1 hl.nests.2 inner.before.blank inner.after.blank, hl.strip, list]

/-- What the callback of an iteration binds is read off its parameters. -/
theorem Fits.binders? (h : p.Fits) : binders? p.text =
    some (p.itemVar, p.keys, p.list.index.map fun i => String.ofList i.2.1.chars) :=
  ParameterList.Fits.binders? h h.strip

/-- Parameters hold no equals sign outside brackets, so the arrow behind them is found. -/
theorem Fits.sealed (h : p.Fits) : Sealed ['='] p.text := by
  have hequals : ∀ c ∈ ['='], isSign c = true := by decide
  cases p with
  | bare around x =>
    refine Written.sealed_padded around hequals (sealed_of_nameChars ?_ (by decide))
    exact fun c hc => isIdentifierChar_of_mem x.valid hc
  | listed outer inner l =>
    have hl : l.Fits := h
    exact Written.sealed_padded outer hequals (hl.nests.1.paren inner.before.blank inner.after.blank)

end Parameters

end Content
end JsxToJinja
