import JsxToJinja.Jinja.Literal
import JsxToJinja.Proofs.Base.ResolvedClasses
import JsxToJinja.Proofs.Classes.ClassArguments

/-! Values written as template literals read back as the same values: no text of a string, at
whatever depth, is taken for structure. -/
namespace JsxToJinja.Jinja
open JsxToJinja.Text JsxToJinja.Code
open JsxToJinja.ClassExpression (listed IsItem Closed sealed_listed splitTopLevel_listed)

/-! ### Quoted texts -/

/-- Escaping is undone by reading, so a quoted text spells the text itself. -/
theorem spelled_escapeQuoted (v : List Char) : Spelled '\x27' (escapeQuoted v) v := by
  induction v with
  | nil => exact .nil
  | cons c v ih =>
    have hcons : escapeQuoted (c :: v) =
        (if c == '\\' || c == '\x27' then ['\\', c] else [c]) ++ escapeQuoted v := by
      simp [escapeQuoted]
    rw [hcons]
    split
    · rename_i hc
      have hletter : c ∉ escapeLetters := by
        simp only [Bool.or_eq_true, beq_iff_eq] at hc
        rcases hc with rfl | rfl <;> decide
      exact .same hletter ih
    · rename_i hc
      simp only [Bool.or_eq_true, beq_iff_eq, not_or] at hc
      exact .plain hc.1 hc.2 ih

theorem quoted_quote (s : String) : Quoted s.toList (quote s).toList := by
  rw [quote_toList]
  exact .mk (.inl rfl) (spelled_escapeQuoted s.toList)

theorem quote_injective : Function.Injective quote := by
  intro s t h
  have hs := (quoted_quote s).stringLiteral?_eq
  rw [h, (quoted_quote t).stringLiteral?_eq, Option.some.injEq] at hs
  exact (String.toList_inj.1 hs).symm

/-- Whatever follows a quoted text, its last quote is the one that closes it. -/
theorem literalClose?_quote (s : String) (rest : List Char) :
    literalClose? ((quote s).toList ++ rest) = some ((quote s).toList.length - 1) := by
  have hclose := literalClose?_body (by decide) (spelled_escapeQuoted s.toList).literalBody rest
  have hlen : (quote s).toList.length - 1 = 1 + (escapeQuoted s.toList).length := by
    rw [quote_toList]
    simp [Nat.add_comm]
  rw [hlen, quote_toList]
  simpa using hclose

/-! ### Numbers -/

section
variable {ds : List Char} (hne : ds ≠ []) (hd : ∀ c ∈ ds, c.isDigit = true)
include hne hd

private theorem readInteger?_digits (h : (Number.digitsValue ds : Int) < -Number.leastWord) :
    readInteger? ds = some (.int (Number.digitsValue ds)) := by
  have hall : ds.all Char.isDigit = true := List.all_eq_true.2 hd
  have hempty : ds.isEmpty = false := by simpa using hne
  have hlo : Number.leastWord ≤ Number.digitsValue ds :=
    Int.le_trans (by decide : Number.leastWord ≤ 0) (Int.natCast_nonneg _)
  rw [readInteger?]
  · simp [hall, hempty, hlo, h]
  · rintro r rfl
    exact absurd (hd '-' (by simp)) (by decide)

private theorem readInteger?_minus (h : Number.leastWord ≤ -(Number.digitsValue ds : Int)) :
    readInteger? ('-' :: ds) = some (.int (-Number.digitsValue ds)) := by
  have hall : ds.all Char.isDigit = true := List.all_eq_true.2 hd
  have hempty : ds.isEmpty = false := by simpa using hne
  have hhi : -(Number.digitsValue ds : Int) < -Number.leastWord := by
    have : Number.leastWord < 0 := by decide
    omega
  simp [readInteger?, hall, hempty, h, hhi]

end

private theorem readInteger?_spelled {n : Int} (hlo : Number.leastWord ≤ n)
    (hhi : n < -Number.leastWord) : readInteger? (Number.spelled n) = some (.int n) := by
  have hdigit (m : Nat) : ∀ c ∈ Nat.toDigits 10 m, c.isDigit = true := fun _ hc =>
    Nat.isDigit_of_mem_toDigits (by decide) (by decide) hc
  have hvalue (m : Nat) : Number.digitsValue (Nat.toDigits 10 m) = m := by
    rw [Number.digitsValue_eq, Nat.ofDigitChars_ten_toDigits]
  rw [Number.spelled_eq]
  split
  · have hn : ((n.toNat : Nat) : Int) = n := by omega
    rw [readInteger?_digits (by simp) (hdigit _) (by rw [hvalue, hn]; exact hhi), hvalue, hn]
  · have hn : -(((-n).toNat : Nat) : Int) = n := by omega
    rw [readInteger?_minus (by simp) (hdigit _) (by rw [hvalue, hn]; exact hlo), hvalue, hn]

/-- A whole number of a signed word is spelled as one. -/
theorem readNumber?_spelled {n : Int} (hlo : Number.leastWord ≤ n) (hhi : n < -Number.leastWord) :
    readNumber? (Number.spelled n) = some (.int n) := by
  have hmark : (Number.spelled n).filter (· != '_') = Number.spelled n := by
    rw [List.filter_eq_self]
    intro c hc
    rcases Number.mem_spelled hc with h | rfl
    · rw [bne_iff_ne]
      rintro rfl
      exact absurd h (by decide)
    · decide
  have hread := readInteger?_spelled hlo hhi
  rw [readNumber?, hmark]
  cases ht : Number.spelled n with
  | nil => exact absurd ht (Number.spelled_ne_nil n)
  | cons c t =>
    have hc : (c.isDigit || c == '-' || c == '.') = true := by
      rcases Number.mem_spelled (n := n) (c := c) (by simp [ht]) with h | h <;> simp [h]
    rw [ht] at hread
    simp only [hc, hread, if_true]

/-! ### Lists -/

/-- A text that stands for itself in a list or an entry: outside its brackets and literals it holds no
character of `avoid`, and no parentheses are around it. -/
structure Standalone (avoid t : List Char) : Prop where
  sealed : Sealed avoid t
  trimmed : Trimmed t
  ne_nil : t ≠ []
  noParen : t.head? ≠ some '('

def spaced : List (List Char) → List (List Char)
  | [] => []
  | r :: rs => r :: rs.map (' ' :: ·)

theorem intercalate_comma (rs : List (List Char)) :
    ", ".toList.intercalate rs = listed (spaced rs) := by
  cases rs with
  | nil => rfl
  | cons r rs =>
    rw [intercalate_cons, spaced, listed, intercalate_cons, List.map_map]
    rfl

theorem mem_spaced {r : List Char} {rs : List (List Char)} (h : r ∈ spaced rs) :
    ∃ s ∈ rs, r = s ∨ r = ' ' :: s := by
  cases rs with
  | nil => cases h
  | cons s rs =>
    rcases List.mem_cons.1 h with rfl | h
    · exact ⟨r, by simp, .inl rfl⟩
    · obtain ⟨t, ht, rfl⟩ := List.mem_map.1 h
      exact ⟨t, by simp [ht], .inr rfl⟩

theorem Standalone.trim_spaced {avoid t : List Char} (h : Standalone avoid t) :
    trim (' ' :: t) = t := by
  simpa using trim_pad blank_space h.trimmed blank_nil

section
variable {rs : List (List Char)} (h : ∀ r ∈ rs, Standalone [','] r)
include h

private theorem isItem_spaced : ∀ r ∈ spaced rs, IsItem r := by
  intro r hr
  obtain ⟨s, hs, hrs⟩ := mem_spaced hr
  have hclosed : Closed s := ⟨(h s hs).trimmed, (h s hs).ne_nil, (h s hs).sealed⟩
  rcases hrs with rfl | rfl
  · simpa using (hclosed.isItem blank_nil blank_nil).1
  · simpa using (hclosed.isItem blank_space blank_nil).1

private theorem map_trim_spaced : (spaced rs).map trim = rs := by
  cases rs with
  | nil => rfl
  | cons r rs =>
    have hrest : rs.map (trim ∘ (' ' :: ·)) = rs :=
      (List.map_congr_left fun s hs => (h s (by simp [hs])).trim_spaced).trans (List.map_id rs)
    rw [spaced, List.map_cons, (h r (by simp)).trimmed.trim_eq, List.map_map, hrest]

theorem sealed_commas : Sealed [] (", ".toList.intercalate rs) := by
  rw [intercalate_comma]
  exact sealed_listed (isItem_spaced h)

/-- Pieces between commas come back as they were written. -/
theorem splitTopLevel_commas : splitTopLevel (", ".toList.intercalate rs) [','] = rs := by
  rw [intercalate_comma, splitTopLevel_listed (isItem_spaced h), map_trim_spaced h]

end

/-! ### Values -/

/-- A value that a template literal can hold: no null and no double is in it, whole numbers fit a
signed word, and the fields of its objects are sorted and have names. -/
inductive IsLiteral : Json → Prop where
  | bool (b : Bool) : IsLiteral (.bool b)
  | int {n : Int} : Number.leastWord ≤ n → n < -Number.leastWord → IsLiteral (.num (.int n))
  | str (s : String) : IsLiteral (.str s)
  | arr {items : List Json} : (∀ v ∈ items, IsLiteral v) → IsLiteral (.arr items)
  | obj {fields : Fields} : (fields.Pairwise fun e f => e.1 < f.1) → (∀ e ∈ fields, e.1 ≠ "") →
      (∀ e ∈ fields, IsLiteral e.2) → IsLiteral (.obj fields)

def valueText (v : Json) : List Char := (literal v).toList

def fieldText (e : String × Json) : List Char := (quote e.1).toList ++ ':' :: ' ' :: valueText e.2

theorem valueText_arr (items : List Json) :
    valueText (.arr items) = '[' :: (", ".toList.intercalate (items.map valueText) ++ [']']) := by
  have hitems : literals items = items.map literal := by
    induction items with
    | nil => rfl
    | cons v items ih => rw [literals, ih, List.map_cons]
  simp [valueText, literal, hitems, String.toList_intercalate, List.map_map]
  rfl

theorem valueText_obj (fields : Fields) :
    valueText (.obj fields) = '\x7b' :: (", ".toList.intercalate (fields.map fieldText) ++ ['\x7d']) := by
  have hfields : (literalFields fields).map String.toList = fields.map fieldText := by
    induction fields with
    | nil => rfl
    | cons e fields ih =>
      rw [literalFields, List.map_cons, ih, List.map_cons]
      simp [fieldText, valueText]
  simp [valueText, literal, hfields, String.toList_intercalate]

section
variable {avoid : List Char}

theorem standalone_of_quoted {v t : List Char} (h : Quoted v t) : Standalone avoid t := by
  refine ⟨h.sealed, h.edged.trimmed, h.edged.ne_nil, ?_⟩
  cases h with
  | mk hq _ => rcases hq with rfl | rfl <;> simp

theorem standalone_bracket {o c : Char} {inner : List Char} (hc : closingFor? o = some c)
    (ho : o ≠ '(') (hi : Sealed [] inner) : Standalone avoid (o :: (inner ++ [c])) := by
  have hblank : isBlank o = false ∧ isBlank c = false := by
    obtain ⟨rfl, rfl⟩ | ⟨rfl, rfl⟩ | ⟨rfl, rfl⟩ := closingFor?_cases hc <;> decide
  exact ⟨.bracket hc hi, trimmed_cons_concat hblank.1 hblank.2 inner, by simp, by simpa using ho⟩

theorem standalone_of_plain {t : List Char} (hne : t ≠ [])
    (h : ∀ c ∈ t, c ∉ avoid ∧ isOrdinary c = true ∧ isBlank c = false) : Standalone avoid t := by
  refine ⟨sealed_of_ordinary fun c hc => ⟨(h c hc).1, (h c hc).2.1⟩,
    trimmed_of_no_blank fun c hc => (h c hc).2.2, hne, fun hhead => ?_⟩
  exact absurd (h '(' (List.mem_of_mem_head? hhead)).2.1 (by decide)

end

theorem standalone_items {items : List Json}
    (h : ∀ v ∈ items, Standalone [',', ':', ' '] (valueText v)) :
    ∀ t ∈ items.map valueText, Standalone [','] t := by
  intro t ht
  obtain ⟨v, hv, rfl⟩ := List.mem_map.1 ht
  have hv := h v hv
  exact ⟨hv.sealed.mono (by simp), hv.trimmed, hv.ne_nil, hv.noParen⟩

theorem standalone_fields {fields : Fields}
    (h : ∀ e ∈ fields, Standalone [',', ':', ' '] (valueText e.2)) :
    ∀ t ∈ fields.map fieldText, Standalone [','] t := by
  intro t ht
  obtain ⟨e, he, rfl⟩ := List.mem_map.1 ht
  have hv := h e he
  have hq : Standalone [','] (quote e.1).toList := standalone_of_quoted (quoted_quote e.1)
  have hmark : Sealed [','] (':' :: ' ' :: valueText e.2) :=
    .plain (by decide) (by decide) (.plain (by decide) (by decide) (hv.sealed.mono (by simp)))
  refine ⟨hq.sealed.append hmark, hq.trimmed.between hv.trimmed hq.ne_nil hv.ne_nil [':', ' '],
    by simp [fieldText], ?_⟩
  rw [fieldText, quote_toList]
  simp

/-- A value that is written stands for itself. -/
theorem IsLiteral.standalone {v : Json} (h : IsLiteral v) : Standalone [',', ':', ' '] (valueText v) := by
  induction h with
  | bool b => cases b <;> exact standalone_of_plain (by decide) (by decide)
  | @int n _ _ =>
    apply standalone_of_plain (Number.spelled_ne_nil n)
    intro c hc
    rcases Number.mem_spelled hc with hd | rfl
    · have hchar : isIdentifierChar c = true := by simp [isIdentifierChar, Char.isAlphanum, hd]
      refine ⟨?_, isOrdinary_of_isIdentifierChar hchar, not_blank_of_isIdentifierChar hchar⟩
      intro hm
      have hnone : ∀ d ∈ [',', ':', ' '], d.isDigit = false := by decide
      simp [hnone c hm] at hd
    · exact ⟨by decide, by decide, by decide⟩
  | str s => exact standalone_of_quoted (quoted_quote s)
  | arr _ ih =>
    rw [valueText_arr]
    exact standalone_bracket (by decide) (by decide) (sealed_commas (standalone_items ih))
  | obj _ _ _ ih =>
    rw [valueText_obj]
    exact standalone_bracket (by decide) (by decide) (sealed_commas (standalone_fields ih))

/-! ### Reading back -/

/-- Code without a blank outside its brackets and literals has no type assertion. -/
theorem stripTypeAssertion_of_sealed {t : List Char} (hs : Sealed [' '] t) (ht : Trimmed t) :
    stripTypeAssertion t = t := by
  have hcut : Cutting [' '] ' ' := ⟨by simp, by decide, by decide⟩
  have hnone := hs.findLastTopLevel?_eq_none hcut ['a', 's', ' ']
  simp only [stripTypeAssertion, ht.trim_eq]
  rw [show " as ".toList = ' ' :: ['a', 's', ' '] from rfl, hnone]

theorem Standalone.strip {t u : List Char} (h : Standalone [',', ':', ' '] t) (hu : Blank u) :
    stripTypeAssertion (stripOuterParens (u ++ t)) = t := by
  have hparens : stripOuterParens (u ++ t) = t := by
    have hpad := stripOuterParens_pad hu h.trimmed blank_nil
    rw [List.append_nil] at hpad
    rw [hpad, stripOuterParens_of_not_group h.trimmed (isGroup_of_head h.noParen)]
  rw [hparens, stripTypeAssertion_of_sealed (h.sealed.mono (by simp)) h.trimmed]

theorem length_le_intercalate (sep : List Char) {r : List Char} {rs : List (List Char)} (h : r ∈ rs) :
    r.length ≤ (sep.intercalate rs).length := by
  induction rs with
  | nil => cases h
  | cons s rs ih =>
    rw [intercalate_cons, List.length_append]
    rcases List.mem_cons.1 h with rfl | h
    · omega
    · have hpart : sep ++ r ∈ rs.map (sep ++ ·) := List.mem_map_of_mem h
      have hlen := (List.sublist_flatten_of_mem hpart).length_le
      rw [List.length_append] at hlen
      omega

section
variable {code inner : List Char} {fuel : Nat}

private theorem readings_bracket {o : Char} {t : List Char} (ho : o = '[' ∨ o = '\x7b')
    (ht : Trimmed (o :: t)) : stringLiteral? (o :: t) = none ∧ readNumber? (o :: t) = none := by
  refine ⟨stringLiteral?_of_head ?_, ?_⟩
  · have hquote : isQuote o = false := by rcases ho with rfl | rfl <;> decide
    simpa [ht.trim_eq] using hquote
  · rcases ho with rfl | rfl <;> simp [readNumber?]

/-- What reads as a number is no keyword. -/
theorem literalWithin?_number {t : List Char} {n : Number} (htext : stringLiteral? t = none)
    (hnumber : readNumber? t = some n) (hcode : stripTypeAssertion (stripOuterParens code) = t) :
    literalWithin? (fuel + 1) code = some (.num n) := by
  have hwords : ∀ w ∈ ["true", "false", "null", "undefined"], readNumber? w.toList = none := by decide
  have hword (w : String) (hw : w ∈ ["true", "false", "null", "undefined"]) :
      (t == w.toList) = false := by
    rw [beq_eq_false_iff_ne]
    rintro rfl
    rw [hwords w hw] at hnumber
    cases hnumber
  simp only [literalWithin?, hcode, htext, hnumber, hword "true" (by simp), hword "false" (by simp),
    hword "null" (by simp), hword "undefined" (by simp)]
  simp

theorem literalWithin?_list (hi : Sealed [] inner)
    (hcode : stripTypeAssertion (stripOuterParens code) = '[' :: (inner ++ [']'])) :
    literalWithin? (fuel + 1) code =
      ((splitTopLevel inner [',']).mapM (literalWithin? fuel)).map .arr := by
  obtain ⟨htext, hnumber⟩ := readings_bracket (.inl rfl) (trimmed_cons_concat (a := '[') (b := ']') (by decide) (by decide) inner)
  have hgroup := isGroup_bracket (o := '[') (c := ']') (by decide) hi
  simp only [literalWithin?, hcode, htext, hnumber, hgroup, groupInner_bracket, if_true]
  simp

theorem literalWithin?_object (hi : Sealed [] inner)
    (hcode : stripTypeAssertion (stripOuterParens code) = '\x7b' :: (inner ++ ['\x7d'])) :
    literalWithin? (fuel + 1) code = some (.obj (entriesWithin fuel inner)) := by
  obtain ⟨htext, hnumber⟩ := readings_bracket (.inr rfl) (trimmed_cons_concat (a := '\x7b') (b := '\x7d') (by decide) (by decide) inner)
  have hgroup := isGroup_bracket (o := '\x7b') (c := '\x7d') (by decide) hi
  have hlist : isGroup '[' ('\x7b' :: (inner ++ ['\x7d'])) = false := isGroup_of_head (by simp)
  simp only [literalWithin?, hcode, htext, hnumber, hgroup, hlist, groupInner_bracket, if_true]
  simp

end

/-- The fields of an object are read back one by one, the colon first. -/
theorem entriesWithin_fields {fields : Fields} {fuel : Nat}
    (hsorted : fields.Pairwise fun e f => e.1 < f.1) (hnames : ∀ e ∈ fields, e.1 ≠ "")
    (hvalues : ∀ e ∈ fields, Standalone [',', ':', ' '] (valueText e.2))
    (h : ∀ e ∈ fields, literalWithin? fuel (' ' :: valueText e.2) = some e.2) :
    entriesWithin (fuel + 1) (", ".toList.intercalate (fields.map fieldText)) = fields := by
  rw [entriesWithin, splitTopLevel_commas (standalone_fields hvalues), List.foldl_map]
  refine Eq.trans (List.foldl_rel (r := Eq) rfl ?_) (Dict.ofList_of_sorted hsorted)
  rintro e he acc _ rfl
  have hhead : (fieldText e).head? ≠ some '.' := by
    rw [fieldText, quote_toList]
    simp
  have hdots : startsWith (fieldText e) "...".toList = false := startsWith_of_head hhead ['.', '.']
  have hcolon : findTopLevel? (fieldText e) [':'] = some (quote e.1).toList.length := by
    have hcut : Cutting [':'] ':' := ⟨by simp, by decide, by decide⟩
    exact (quoted_quote e.1).sealed.findTopLevel?_append hcut [] (' ' :: valueText e.2)
  have hkey : (fieldText e).take (quote e.1).toList.length = (quote e.1).toList := List.take_left
  have hvalue : (fieldText e).drop ((quote e.1).toList.length + 1) = ' ' :: valueText e.2 := by
    rw [fieldText, ← List.drop_drop, List.drop_left]
    rfl
  have hname : e.1.toList.isEmpty = false := by
    simpa using hnames e he
  simp only [hdots, hcolon, hkey, hvalue, (quoted_quote e.1).edged.trimmed.trim_eq,
    (quoted_quote e.1).stringLiteral?_eq, h e he]
  simp [hname]

theorem mapM_valueText {items : List Json} {read : List Char → Option Json}
    (h : ∀ v ∈ items, read (valueText v) = some v) : (items.map valueText).mapM read = some items := by
  induction items with
  | nil => rfl
  | cons v items ih =>
    rw [List.map_cons, List.mapM_cons, h v (by simp), ih fun w hw => h w (by simp [hw])]
    rfl

/-- Reading a value with as many steps as its text has characters gives the value. -/
theorem IsLiteral.literalWithin?_eq {v : Json} (h : IsLiteral v) {u : List Char} (hu : Blank u)
    {fuel : Nat} (hfuel : (valueText v).length < fuel) : literalWithin? fuel (u ++ valueText v) = some v := by
  induction h generalizing u fuel with
  | bool b =>
    have hstrip := (IsLiteral.bool b).standalone.strip hu
    obtain ⟨fuel, rfl⟩ : ∃ n, fuel = n + 1 := ⟨fuel - 1, by omega⟩
    simp only [literalWithin?, hstrip]
    cases b <;> rfl
  | @int n hlo hhi =>
    have hstrip := (IsLiteral.int hlo hhi).standalone.strip hu
    obtain ⟨fuel, rfl⟩ : ∃ n, fuel = n + 1 := ⟨fuel - 1, by omega⟩
    have htrim := (IsLiteral.int hlo hhi).standalone.trimmed.trim_eq
    have hhead : ∀ c ∈ (trim (Number.spelled n)).head?, isQuote c = false := by
      intro c hc
      rw [show trim (Number.spelled n) = _ from htrim] at hc
      exact (integer_head (Number.mem_spelled (List.mem_of_mem_head? hc))).2
    exact literalWithin?_number (stringLiteral?_of_head hhead) (readNumber?_spelled hlo hhi) hstrip
  | str s =>
    have hstrip := (IsLiteral.str s).standalone.strip hu
    obtain ⟨fuel, rfl⟩ : ∃ n, fuel = n + 1 := ⟨fuel - 1, by omega⟩
    simp only [literalWithin?, hstrip]
    rw [show stringLiteral? (valueText (.str s)) = _ from (quoted_quote s).stringLiteral?_eq]
    simp
  | @arr items hitems ih =>
    have hstrip := (IsLiteral.arr hitems).standalone.strip hu
    have hpieces := standalone_items fun v hv => (hitems v hv).standalone
    rw [valueText_arr] at hstrip hfuel ⊢
    obtain ⟨fuel, rfl⟩ : ∃ n, fuel = n + 1 := ⟨fuel - 1, by omega⟩
    have hread : (items.map valueText).mapM (literalWithin? fuel) = some items := by
      apply mapM_valueText
      intro v hv
      have hlen := length_le_intercalate ", ".toList (List.mem_map_of_mem (f := valueText) hv)
      simp only [List.length_cons, List.length_append] at hfuel
      exact ih v hv blank_nil (by omega)
    rw [literalWithin?_list (sealed_commas hpieces) hstrip, splitTopLevel_commas hpieces, hread]
    rfl
  | @obj fields hsorted hnames hvalues ih =>
    have hstrip := (IsLiteral.obj hsorted hnames hvalues).standalone.strip hu
    have hpieces := standalone_fields fun e he => (hvalues e he).standalone
    rw [valueText_obj] at hstrip hfuel ⊢
    simp only [List.length_cons, List.length_append] at hfuel
    obtain ⟨fuel, rfl⟩ : ∃ n, fuel = n + 1 + 1 := ⟨fuel - 2, by omega⟩
    rw [literalWithin?_object (sealed_commas hpieces) hstrip,
      entriesWithin_fields hsorted hnames (fun e he => (hvalues e he).standalone)]
    intro e he
    have hlen := length_le_intercalate ", ".toList (List.mem_map_of_mem (f := fieldText) he)
    simp only [fieldText, List.length_append, List.length_cons] at hlen
    exact ih e he blank_space (by omega)

/-- What is written into a template as a literal reads back as the same value, and a quoted text ends
at its own last quote whatever follows it. -/
theorem literal_reads_back {v : Json} (hv : IsLiteral v) :
    literal? (literal v).toList = some v ∧ Function.Injective quote ∧
      ∀ (s : String) (rest : List Char),
        literalClose? ((quote s).toList ++ rest) = some ((quote s).toList.length - 1) ∧
        stringLiteral? (quote s).toList = some s.toList := by
  refine ⟨?_, quote_injective, fun s rest => ⟨literalClose?_quote s rest, ?_⟩⟩
  · exact hv.literalWithin?_eq blank_nil (Nat.lt_add_of_pos_right (by decide))
  · exact (quoted_quote s).stringLiteral?_eq

/-- A text with quotes and brackets, nested in an object of a list, comes back. -/
theorem card_values_read_back :
    let v : Json := .arr [.obj [("it's", .str "]\\', '\n\x7d"), ("n", Json.int (-9223372036854775808))],
      .bool true]
    literal? (literal v).toList = some v ∧ Function.Injective quote ∧
      ∀ (s : String) (rest : List Char),
        literalClose? ((quote s).toList ++ rest) = some ((quote s).toList.length - 1) ∧
        stringLiteral? (quote s).toList = some s.toList := by
  apply literal_reads_back
  refine .arr fun v hv => ?_
  simp only [List.mem_cons, List.not_mem_nil, or_false] at hv
  rcases hv with rfl | rfl
  · refine .obj (by decide) (by decide) fun e he => ?_
    simp only [List.mem_cons, List.not_mem_nil, or_false] at he
    rcases he with rfl | rfl
    · exact .str _
    · exact .int (by decide) (by decide)
  · exact .bool true

end JsxToJinja.Jinja
