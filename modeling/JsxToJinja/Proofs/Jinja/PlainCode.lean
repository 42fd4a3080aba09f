import JsxToJinja.Jinja.ClassList
import JsxToJinja.Jinja.Literal
import JsxToJinja.Proofs.Base.ResolvedClasses
import JsxToJinja.Proofs.Code.Cuts
import JsxToJinja.Proofs.Code.Names
import JsxToJinja.Proofs.Number.Spelling
import JsxToJinja.Proofs.Text.TagFree

/-! What the generator writes for texts and code without an opening of a tag has none either, as long
as no template literal is taken apart. -/
namespace JsxToJinja.Jinja
open JsxToJinja.Text JsxToJinja.Code

/-! ### Texts and values -/

theorem tagFree_escapeQuoted {t : List Char} (h : TagFree t) : TagFree (escapeQuoted t) := by
  refine h.flatMap fun c _ => ?_
  split
  · rename_i hc
    simp only [Bool.or_eq_true, beq_iff_eq] at hc
    right
    rcases hc with rfl | rfl <;> decide
  · exact .inl rfl

/-- A text between two characters that take no part in a tag. -/
theorem firm_between {t : List Char} (h : TagFree t) (a b : Char)
    (ha : a ≠ '\x7b' ∧ a ≠ '%') (hb : b ≠ '\x7b' ∧ b ≠ '%') :
    Firm (a :: (t ++ [b])) where
  free := by simp [tagFree_cons, tagFree_append, tagFree_nil, h, ha.1, hb, Apart]
  nonempty := by simp
  head := by simpa using ha.2
  last := by simpa [List.getLast?_cons] using hb.1

theorem firm_quoteText {t : List Char} (h : TagFree t) : Firm (quoteText t) :=
  firm_between (tagFree_escapeQuoted h) '\x27' '\x27' (by decide) (by decide)

theorem tagFree_quote {s : String} (h : TagFree s.toList) : TagFree (quote s).toList := by
  rw [quote, String.toList_ofList]
  exact (firm_quoteText h).free

private theorem tagFree_braced {sep : List Char} (hs : Firm sep) {pieces : List (List Char)}
    (hfree : ∀ p ∈ pieces, TagFree p) (hhead : ∀ p ∈ pieces, ∃ c, p.head? = some c ∧ c ≠ '%') :
    TagFree ('\x7b' :: (sep.intercalate pieces ++ ['\x7d'])) := by
  have hinner := hs.tagFree_intercalate hfree
  have hstart : (sep.intercalate pieces ++ ['\x7d']).head? ≠ some '%' := by
    cases pieces with
    | nil => simp
    | cons p ps =>
      obtain ⟨c, hc, hne⟩ := hhead p (by simp)
      have hp : (sep.intercalate (p :: ps)).head? = some c := by
        cases ps with
        | nil => simpa using hc
        | cons q ps => rw [List.intercalate_cons_cons, List.head?_append, List.head?_append, hc]; rfl
      simpa [List.head?_append, hp] using hne
  rw [tagFree_cons, tagFree_append]
  exact ⟨⟨hinner, by decide, .of_head (by simp)⟩, fun _ => hstart⟩

end JsxToJinja.Jinja

namespace JsxToJinja.Json
open JsxToJinja.Text JsxToJinja.Jinja

mutual

def texts : Json → List String
  | .str s => [s]
  | .arr items => textsAll items
  | .obj fields => textsFields fields
  | _ => []

def textsAll : List Json → List String
  | [] => []
  | v :: rest => texts v ++ textsAll rest

def textsFields : List (String × Json) → List String
  | [] => []
  | (k, v) :: rest => k :: (texts v ++ textsFields rest)

end

theorem tagFree_quoted {s : String} (h : TagFree s.toList) : Firm (quoted s).toList := by
  have hescaped : TagFree (s.toList.flatMap escapeChar) := by
    refine h.flatMap fun c _ => ?_
    have htable : ∀ n < 32, Firm (escapeChar (Char.ofNat n)) := by decide
    by_cases hc : c.toNat < 32
    · right
      simpa using htable _ hc
    · rw [escapeChar]
      split
      all_goals first | omega | exact .inr (by decide) | skip
      rw [if_neg hc]
      exact .inl rfl
  have htext : (quoted s).toList = '\x22' :: (s.toList.flatMap escapeChar ++ ['\x22']) := by
    simp [quoted]
  rw [htext]
  exact firm_between hescaped '\x22' '\x22' (by decide) (by decide)

mutual

/-- JSON text holds an opening of a tag only if one of its strings does. -/
theorem tagFree_compact : (v : Json) → (∀ s ∈ texts v, TagFree s.toList) → TagFree (compact v).toList
  | .null, _ => by decide
  | .bool b, _ => by cases b <;> decide
  | .num n, _ => .of_notMem n.brace_notMem_text
  | .str s, h => (tagFree_quoted (h s (by simp [texts]))).free
  | .arr items, h => by
    have hitems := tagFree_compactItems items h
    have htext : (compact (.arr items)).toList =
        '[' :: ([','].intercalate ((compactItems items).map String.toList) ++ [']']) := by
      simp [compact]
    rw [htext]
    refine (firm_between (Firm.tagFree_intercalate (by decide) ?_) '[' ']' (by decide) (by decide)).free
    simpa using hitems
  | .obj fields, h => by
    have hfields := tagFree_compactFields fields h
    have htext : (compact (.obj fields)).toList =
        '\x7b' :: ([','].intercalate ((compactFields fields).map String.toList) ++ ['\x7d']) := by
      simp [compact]
    rw [htext]
    refine tagFree_braced (by decide) ?_ ?_
    · simpa using fun s hs => (hfields s hs).1
    · simpa using fun s hs => ⟨'\x22', (hfields s hs).2, by decide⟩

theorem tagFree_compactItems : (items : List Json) → (∀ s ∈ textsAll items, TagFree s.toList) →
    ∀ s ∈ compactItems items, TagFree s.toList
  | [], _ => by simp [compactItems]
  | v :: rest, h => by
    have hv := tagFree_compact v fun s hs => h s (by simp [textsAll, hs])
    have hrest := tagFree_compactItems rest fun s hs => h s (by simp [textsAll, hs])
    intro s hs
    rcases List.mem_cons.1 hs with rfl | hs
    · exact hv
    · exact hrest s hs

theorem tagFree_compactFields : (fields : List (String × Json)) →
    (∀ s ∈ textsFields fields, TagFree s.toList) →
    ∀ s ∈ compactFields fields, TagFree s.toList ∧ s.toList.head? = some '\x22'
  | [], _ => by simp [compactFields]
  | (k, v) :: rest, h => by
    have hk := tagFree_quoted (h k (by simp [textsFields]))
    have hv := tagFree_compact v fun s hs => h s (by simp [textsFields, hs])
    have hrest := tagFree_compactFields rest fun s hs => h s (by simp [textsFields, hs])
    intro s hs
    rcases List.mem_cons.1 hs with rfl | hs
    · refine ⟨?_, by simp [quoted]⟩
      simp [tagFree_append, tagFree_cons, hk.free, hv, Apart]
    · exact hrest s hs

end

end JsxToJinja.Json

namespace JsxToJinja.Jinja
open JsxToJinja.Text JsxToJinja.Code

theorem tagFree_operand {v : Json} (h : ∀ s ∈ v.texts, TagFree s.toList) : TagFree (operand v).toList := by
  cases v with
  | str s => exact tagFree_quote (h s (by simp [Json.texts]))
  | null => decide
  | _ => exact Json.tagFree_compact _ h

mutual

/-- A literal holds an opening of a tag only if one of its strings does. -/
theorem tagFree_literal : (v : Json) → (∀ s ∈ v.texts, TagFree s.toList) → TagFree (literal v).toList
  | .null, _ => by decide
  | .bool b, _ => by cases b <;> decide
  | .num n, _ => .of_notMem n.brace_notMem_text
  | .str s, h => tagFree_quote (h s (by simp [Json.texts]))
  | .arr items, h => by
    have hitems := tagFree_literals items h
    have htext : (literal (.arr items)).toList =
        '[' :: ([',', ' '].intercalate ((literals items).map String.toList) ++ [']']) := by
      simp [literal]
    rw [htext]
    refine (firm_between (Firm.tagFree_intercalate (by decide) ?_) '[' ']' (by decide) (by decide)).free
    simpa using hitems
  | .obj fields, h => by
    have hfields := tagFree_literalFields fields h
    have htext : (literal (.obj fields)).toList =
        '\x7b' :: ([',', ' '].intercalate ((literalFields fields).map String.toList) ++ ['\x7d']) := by
      simp [literal]
    rw [htext]
    refine tagFree_braced (by decide) ?_ ?_
    · simpa using fun s hs => (hfields s hs).1
    · simpa using fun s hs => ⟨'\x27', (hfields s hs).2, by decide⟩

theorem tagFree_literals : (items : List Json) → (∀ s ∈ Json.textsAll items, TagFree s.toList) →
    ∀ s ∈ literals items, TagFree s.toList
  | [], _ => by simp [literals]
  | v :: rest, h => by
    have hv := tagFree_literal v fun s hs => h s (by simp [Json.textsAll, hs])
    have hrest := tagFree_literals rest fun s hs => h s (by simp [Json.textsAll, hs])
    intro s hs
    rcases List.mem_cons.1 hs with rfl | hs
    · exact hv
    · exact hrest s hs

theorem tagFree_literalFields : (fields : List (String × Json)) →
    (∀ s ∈ Json.textsFields fields, TagFree s.toList) →
    ∀ s ∈ literalFields fields, TagFree s.toList ∧ s.toList.head? = some '\x27'
  | [], _ => by simp [literalFields]
  | (k, v) :: rest, h => by
    have hk := tagFree_quote (h k (by simp [Json.textsFields]))
    have hv := tagFree_literal v fun s hs => h s (by simp [Json.textsFields, hs])
    have hrest := tagFree_literalFields rest fun s hs => h s (by simp [Json.textsFields, hs])
    intro s hs
    rcases List.mem_cons.1 hs with rfl | hs
    · refine ⟨?_, by simp [quote_toList]⟩
      simp [tagFree_append, tagFree_cons, hk, hv, Apart]
    · exact hrest s hs

end

end JsxToJinja.Jinja

/-! ### Names -/

namespace JsxToJinja.NameMap
open JsxToJinja.Text

/-- No new name takes part in a tag. -/
def Firm (names : NameMap) : Prop := ∀ e ∈ names.renames, Text.Firm e.2.toList

theorem firm_empty : Firm {} := by simp [Firm]

private theorem exists_fresh (taken : List String) (fuel : Nat) (name : String) :
    ∃ n, (fresh taken fuel name).toList = name.toList ++ List.replicate n '_' := by
  induction fuel generalizing name with
  | zero => exact ⟨0, by simp [fresh]⟩
  | succ fuel ih =>
    rw [fresh]
    split
    · obtain ⟨n, hn⟩ := ih (name ++ "_")
      exact ⟨n + 1, by rw [hn]; simp [List.replicate_succ]⟩
    · exact ⟨0, by simp⟩

/-- A declaration keeps the new names out of tags. -/
theorem Firm.declare {names : NameMap} (h : names.Firm) (name : String) : (names.declare name).Firm := by
  rw [NameMap.declare]
  split
  · exact h
  · rename_i hnew
    simp only [Bool.or_eq_true, Bool.not_eq_true', not_or, Bool.not_eq_false] at hnew
    have hreserved : ∀ name ∈ reservedNames, '\x7b' ∉ name.toList ∧ '%' ∉ name.toList := by decide
    have hname := hreserved name (by simpa [isReserved] using hnew.1)
    dsimp only
    intro e he
    rcases Dict.mem_of_mem_insert he with rfl | he
    · obtain ⟨n, hn⟩ := exists_fresh (names.renames.map (·.2))
        (reservedNames.length + (names.renames.map (·.2)).length + 1) (name ++ "_attr")
      rw [hn]
      exact .of_notMem (by simp) (by simp [hname]) (by simp [hname])
    · exact h e he

theorem firm_ofNames (list : List String) : (ofNames list).Firm := by
  have hfold (names : NameMap) (h : names.Firm) : (list.foldl NameMap.declare names).Firm := by
    induction list generalizing names with
    | nil => exact h
    | cons name rest ih => exact ih _ (h.declare name)
  exact hfold {} firm_empty

/-- A name is kept or gets a new one. -/
theorem Firm.resolve {names : NameMap} (h : names.Firm) (name : String) :
    names.resolve name = name ∨ Text.Firm (names.resolve name).toList := by
  rw [NameMap.resolve, Dict.get?]
  cases hfind : names.renames.find? (·.1 == name) with
  | none => exact .inl rfl
  | some e => exact .inr (h e (List.mem_of_find?_eq_some hfind))

theorem Firm.tagFree_resolve {names : NameMap} (h : names.Firm) {name : String}
    (hname : TagFree name.toList) : TagFree (names.resolve name).toList := by
  rcases h.resolve name with heq | hfirm
  · rwa [heq]
  · exact hfirm.free

end JsxToJinja.NameMap

/-! ### Code -/

namespace JsxToJinja.Code
open JsxToJinja.Text

theorem infix_groupInner (t : List Char) : groupInner t <:+: t :=
  (List.dropLast_prefix _).isInfix.trans (List.drop_suffix 1 t).isInfix

theorem infix_stripOuterParens (t : List Char) : stripOuterParens t <:+: t := by
  have hparens (n : Nat) (t : List Char) : stripParens n t <:+: t := by
    induction n generalizing t with
    | zero => exact List.infix_rfl
    | succ n ih =>
      rw [stripParens]
      split
      · exact (ih _).trans ((infix_trim _).trans (infix_groupInner t))
      · exact List.infix_rfl
  exact (hparens _ _).trans (infix_trim t)

/-- The parts of a conditional stand in it. -/
theorem infix_of_splitTernary? {t condition yes no : List Char}
    (h : splitTernary? t = some (condition, yes, no)) :
    condition <:+: t ∧ yes <:+: t ∧ no <:+: t := by
  rw [splitTernary?] at h
  obtain ⟨question, -, h⟩ := Option.bind_eq_some_iff.1 h
  obtain ⟨colon, -, h⟩ := Option.bind_eq_some_iff.1 h
  dsimp only at h
  split at h
  · cases h
  · simp only [Option.some.injEq, Prod.mk.injEq] at h
    obtain ⟨rfl, rfl, rfl⟩ := h
    have hslice (start stop : Nat) : slice t start stop <:+: t :=
      (List.drop_suffix _ _).isInfix.trans (List.take_prefix _ t).isInfix
    exact ⟨(infix_trim _).trans (List.take_prefix _ t).isInfix, (infix_trim _).trans (hslice _ _),
      (infix_trim _).trans (List.drop_suffix _ t).isInfix⟩

theorem length_slice_le (t : List Char) (start stop : Nat) :
    (slice t start stop).length ≤ t.length - start := by
  simp only [slice, List.length_drop, List.length_take]
  omega

/-- The parts of a conditional are shorter than the conditional. -/
theorem length_lt_of_splitTernary? {t condition yes no : List Char}
    (h : splitTernary? t = some (condition, yes, no)) :
    condition.length < t.length ∧ yes.length < t.length ∧ no.length < t.length := by
  rw [splitTernary?] at h
  obtain ⟨question, -, h⟩ := Option.bind_eq_some_iff.1 h
  obtain ⟨colon, -, h⟩ := Option.bind_eq_some_iff.1 h
  dsimp only at h
  split at h
  · cases h
  · rename_i hne
    cases h
    have hcond := length_trim_le (t.take question)
    have hyes := length_trim_le (slice t (question + 1) colon)
    have hno := length_trim_le (t.drop (colon + 1))
    have hslice := length_slice_le t (question + 1) colon
    rw [List.length_take] at hcond
    rw [List.length_drop] at hno
    -- the parts are not empty, so each leaves room for the others
    have hpos {u : List Char} (hu : u = [] → False) : 0 < u.length := List.length_pos_iff.2 hu
    have hcondpos := hpos (u := trim (t.take question)) fun he => hne (by simp [he])
    have hyespos := hpos (u := trim (slice t (question + 1) colon)) fun he => hne (by simp [he])
    omega

/-- A group ends in its closing bracket. -/
theorem getLast?_take_balancedLength {t : List Char} {n : Nat} (h : balancedLength? t = some n) :
    ∃ close, (t.take (n + 1)).getLast? = some close ∧ isClosing close = true := by
  cases t with
  | nil => cases h
  | cons c t =>
    rw [balancedLength?] at h
    obtain ⟨close, hclose, h⟩ := Option.bind_eq_some_iff.1 h
    obtain ⟨m, hfind, hm⟩ := Option.bind_eq_some_iff.1 h
    cases hm
    have hmark := List.find?_some hfind
    simp only [Bool.and_eq_true, beq_iff_eq] at hmark
    have hmem := List.mem_of_find?_eq_some hfind
    have hhead := head?_of_mem_marksFrom hmem
    rw [(rest_of_mem_marksFrom hmem).2, Nat.sub_zero, List.head?_drop, hmark.2] at hhead
    refine ⟨close, by simp [List.take_add_one, hhead], ?_⟩
    rw [closingFor?] at hclose
    split at hclose
    · cases hclose
      decide
    · split at hclose
      · cases hclose
        decide
      · split at hclose <;> cases hclose
        decide

end JsxToJinja.Code

namespace JsxToJinja.Jinja
open JsxToJinja.Text JsxToJinja.Code

/-- Text under construction, last character first: what comes next opens no tag with it. -/
structure Settled (out : List Char) : Prop where
  free : TagFree out.reverse
  last : out.head? ≠ some '\x7b'

private theorem firm_infixed {o : String × Operator} (ho : o ∈ operators) {text : String}
    (htext : o.2 = .infixed text) : Firm text.toList := by
  simp only [operators, List.mem_cons, List.not_mem_nil, or_false] at ho
  rcases ho with rfl | rfl | rfl | rfl | rfl | rfl | rfl | rfl | rfl | rfl | rfl | rfl | rfl <;>
    cases htext <;> decide

namespace Settled

variable {out : List Char}

theorem nil : Settled [] := ⟨tagFree_nil, by simp⟩

/-- An end of what is written may go before more is written. -/
theorem write_suffix (h : Settled out) {rest t : List Char} (hs : rest <:+ out) (ht : Firm t) :
    Settled (t.reverse ++ rest) where
  free := by
    rw [List.reverse_append, List.reverse_reverse, tagFree_append]
    exact ⟨h.free.of_isInfix (List.reverse_infix.2 hs.isInfix), ht.free, .of_head ht.head⟩
  last := by
    rw [List.head?_append_of_ne_nil _ (by simpa using ht.nonempty), List.head?_reverse]
    exact ht.last

theorem write (h : Settled out) {t : List Char} (ht : Firm t) : Settled (t.reverse ++ out) :=
  h.write_suffix List.suffix_rfl ht

theorem push (h : Settled out) (c : Char) (hc : c ≠ '\x7b') : Settled (c :: out) where
  free := by
    rw [List.reverse_cons, tagFree_append]
    refine ⟨h.free, tagFree_cons.2 ⟨tagFree_nil, fun he => absurd he hc⟩, fun hlast => ?_⟩
    rw [List.getLast?_reverse] at hlast
    exact absurd hlast h.last
  last := by simpa using hc

theorem space (h : Settled out) : Settled (space out) := by
  rw [Jinja.space.eq_def]
  split
  · exact nil
  · split
    · exact h
    · exact h.push ' ' (by decide)

/-- An operator is written without an opening of a tag. -/
theorem operator (h : Settled out) {o : String × Operator} (ho : o ∈ operators) :
    Settled (writeOperator out o.2) := by
  cases hop : o.2 with
  | infixed text =>
    have hrest : Settled (if (out.dropWhile isBlank).isEmpty then out.dropWhile isBlank
        else ' ' :: out.dropWhile isBlank) := by
      split
      · rename_i hempty
        rw [List.isEmpty_iff.1 hempty]
        exact nil
      · exact h.write_suffix (t := [' ']) (List.dropWhile_suffix _) (by decide)
    exact (hrest.write (firm_infixed ho hop)).push ' ' (by decide)
  | member => exact h.push '.' (by decide)
  | negation => exact h.space.write (by decide)

/-- A word is written without an opening of a tag, whatever it stands for. -/
theorem word (h : Settled out) {names : NameMap} (hnames : names.Firm) {word : List Char}
    (hne : word ≠ []) (hchars : ∀ c ∈ word, isIdentifierChar c = true) (after : List Char) :
    Settled (writeWord names out word after).1 := by
  have hword : Firm word := .of_notMem hne (fun hc => absurd (hchars _ hc) (by decide))
    (fun hc => absurd (hchars _ hc) (by decide))
  have hresolved : Firm (names.resolve (String.ofList word)).toList := by
    rcases hnames.resolve (String.ofList word) with heq | hfirm
    · rwa [heq, String.toList_ofList]
    · exact hfirm
  rw [writeWord]
  split
  · split
    · exact h.write_suffix (t := "|length".toList) (List.drop_suffix 1 out) (by decide)
    · exact h.write hword
  · split
    · exact h.write (t := "none".toList) (by decide)
    · split
      · exact h
      · split
        · exact h
        · split
          · exact h.write (t := contentVariable.toList) (by decide)
          · exact h.write hresolved

end Settled

/-- What a writer makes of code without a template literal opens no tag. -/
def Safe (write : Writer) : Prop := ∀ t, TagFree t → '\x60' ∉ t → TagFree (write t)

section

variable {write : Writer} {t : List Char} (hfree : TagFree t) (htick : '\x60' ∉ t)
include hfree htick

private theorem firm_literalText (hquote : ∃ q, t.head? = some q ∧ isQuote q = true) :
    Firm (literalText write t) := by
  obtain ⟨q, hhead, hq⟩ := hquote
  have hinner : TagFree (groupInner t) := hfree.of_isInfix (infix_groupInner t)
  rw [literalText.eq_def]
  dsimp only
  split
  · exact absurd (List.mem_cons_self ..) htick
  · exact firm_between hinner _ _ (by decide) (by decide)
  · exact firm_quoteText (hinner.replaceAll (by decide))

private theorem firm_groupText (hw : Safe write) (hopening : ∃ o, t.head? = some o ∧ isOpening o = true)
    (hclosing : ∃ c, t.getLast? = some c ∧ isClosing c = true) : Firm (groupText write t) := by
  obtain ⟨o, hhead, ho⟩ := hopening
  obtain ⟨c, hlast, hc⟩ := hclosing
  have hopens : o ≠ '%' := by rintro rfl; exact absurd ho (by decide)
  have hcloses : c ≠ '\x7b' ∧ c ≠ '%' := by
    constructor <;> (rintro rfl; exact absurd hc (by decide))
  rw [groupText.eq_def]
  split
  · exact ⟨hfree, by simp, by simp, by rw [hlast]; simpa using hcloses.1⟩
  · rename_i d rest hbrace
    have hd : d = o := by simpa using hhead
    have hinner := hw _ (hfree.of_isInfix (infix_groupInner (d :: rest)))
      fun h => htick ((infix_groupInner _).subset h)
    rw [hlast]
    refine firm_between hinner d c ⟨?_, hd ▸ hopens⟩ hcloses
    rintro rfl
    exact hbrace rfl
  · cases hhead

end

/-- Every token that is written leaves the text settled. -/
theorem tagFree_writeFrom {names : NameMap} (hnames : names.Firm) {write : Writer} (hw : Safe write)
    {t : List Char} (hfree : TagFree t) (htick : '\x60' ∉ t) {skip : Nat} {out : List Char}
    (hout : Settled out) : TagFree (writeFrom names write skip out t).reverse := by
  induction t generalizing skip out with
  | nil => cases skip <;> exact hout.free
  | cons c t ih =>
    have htail := (tagFree_cons.1 hfree).1
    have htickTail : '\x60' ∉ t := fun h => htick (List.mem_cons_of_mem _ h)
    have ihTail {skip : Nat} {out : List Char} (h : Settled out) :
        TagFree (writeFrom names write skip out t).reverse := ih htail htickTail h
    have hcopied (hc : c ≠ '%') : TagFree ((c :: t).reverse ++ out).reverse := by
      rw [List.reverse_append, List.reverse_reverse, tagFree_append]
      exact ⟨hout.free, hfree, .of_head (by simpa using hc)⟩
    have htake (n : Nat) : TagFree ((c :: t).take (n + 1)) ∧ '\x60' ∉ (c :: t).take (n + 1) :=
      ⟨hfree.of_isInfix (List.take_prefix _ _).isInfix, fun h => htick (List.mem_of_mem_take h)⟩
    cases skip with
    | succ skip => exact ihTail hout
    | zero =>
      rw [writeFrom]
      dsimp only
      split
      · exact ihTail hout.space
      · split
        · rename_i hquote
          split
          · exact hcopied (by rintro rfl; exact absurd hquote (by decide))
          · rename_i n hn
            exact ihTail (hout.write (firm_literalText (htake n).1 (htake n).2 ⟨c, rfl, hquote⟩))
        · split
          · rename_i hopening
            split
            · exact hcopied (by rintro rfl; exact absurd hopening (by decide))
            · rename_i n hn
              exact ihTail (hout.write (firm_groupText (htake n).1 (htake n).2 hw ⟨c, rfl, hopening⟩
                (getLast?_take_balancedLength hn)))
          · rename_i hopening
            split
            · rename_i n op hop
              rw [operatorAt?] at hop
              obtain ⟨o, hfind, ho⟩ := Option.map_eq_some_iff.1 hop
              cases ho
              exact ihTail (hout.operator (List.mem_of_find?_eq_some hfind))
            · split
              · rename_i hstart
                refine ihTail (hout.word hnames ?_ ?_ _)
                · rw [List.takeWhile_cons, if_pos (isIdentifierChar_of_start hstart)]
                  simp
                · exact fun d hd => List.all_eq_true.1 List.all_takeWhile d hd
              · refine ihTail (hout.push c ?_)
                rintro rfl
                exact hopening (by decide)

private theorem safe_translateWithin {names : NameMap} (hnames : names.Firm) (depth : Nat) :
    Safe (translateWithin names depth) := by
  induction depth with
  | zero => exact fun t h _ => h
  | succ depth ih =>
    intro t hfree htick
    have hstrip := infix_stripOuterParens t
    have hbranch {u : List Char} (hu : u <:+: t) :
        TagFree (branchText (translateWithin names depth) u) := by
      have hwritten := ih u (hfree.of_isInfix hu) fun h => htick (hu.subset h)
      rw [branchText]
      split
      · exact (firm_between hwritten '(' ')' (by decide) (by decide)).free
      · exact hwritten
    rw [translateWithin, translateStep]
    split
    · rename_i condition yes no hsplit
      obtain ⟨hcondition, hyes, hno⟩ := infix_of_splitTernary? hsplit
      have hinside := hcondition.trans hstrip
      have htest := ih condition (hfree.of_isInfix hinside) fun h => htick (hinside.subset h)
      simp [tagFree_append, tagFree_cons, Apart, hbranch (hyes.trans hstrip),
        hbranch (hno.trans hstrip), htest]
    · exact (tagFree_writeFrom hnames ih (hfree.of_isInfix hstrip)
        (fun h => htick (hstrip.subset h)) Settled.nil).trim

theorem tagFree_translate {names : NameMap} (hnames : names.Firm) {code : String}
    (hfree : TagFree code.toList) (htick : '\x60' ∉ code.toList) :
    TagFree (translate names code).toList := by
  rw [translate, String.toList_ofList]
  exact safe_translateWithin hnames _ _ hfree htick

end JsxToJinja.Jinja
