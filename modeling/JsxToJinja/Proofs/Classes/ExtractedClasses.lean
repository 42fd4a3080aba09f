import JsxToJinja.Proofs.Classes.ClassArguments

/-! Extraction keeps what a class helper means: where nothing is left for review, the classes that are
always present and those whose trigger holds are the classes that the helper puts together. -/
namespace JsxToJinja.ClassExpression
open JsxToJinja.Text JsxToJinja.Code

variable {attributes : List Attribute} {env : String → Json}

/-! ### Calls -/

/-- In front of the first parenthesis stands nothing, or a character that belongs to no name. -/
inductive CallFree : List Char → Prop where
  | bare {t : List Char} : '(' ∉ t → CallFree t
  | group (t : List Char) : CallFree ('(' :: t)
  | sign {a : List Char} {c : Char} (b : List Char) : '(' ∉ a → isSign c = true → c ≠ '(' →
      CallFree (a ++ c :: b)

theorem callFree_cons {c : Char} (hs : isSign c = true) (hc : c ≠ '(') (t : List Char) :
    CallFree (c :: t) := .sign (a := []) t (by simp) hs hc

theorem paren_notMem_blank {p : List Char} (hp : Blank p) : '(' ∉ p := fun hm =>
  absurd (hp _ hm) (by decide)

theorem paren_notMem_name {t : List Char} (ht : isIdentifier t = true) : '(' ∉ t := fun hm =>
  absurd (isIdentifierChar_of_mem ht hm) (by decide)

/-- An operator behind a text makes no call of it. -/
theorem CallFree.append {t p : List Char} {c : Char} (h : CallFree t) (hp : Blank p)
    (hs : isSign c = true) (hc : c ≠ '(') (r : List Char) : CallFree (t ++ (p ++ c :: r)) := by
  cases h with
  | bare ht =>
    have hfront : '(' ∉ t ++ p := by simp [ht, paren_notMem_blank hp]
    simpa using CallFree.sign r hfront hs hc
  | group t => exact .group _
  | sign b ha hs hc => simpa using CallFree.sign (b ++ (p ++ c :: r)) ha hs hc

theorem isPath_paren_notMem {t : List Char} (h : IsPath t) : '(' ∉ t := by
  induction h with
  | name ht => exact paren_notMem_name ht
  | dot ht _ ih => simp [paren_notMem_name ht, ih]
  | link ht _ ih => simp [paren_notMem_name ht, ih]

theorem callFree_quoted {v t : List Char} (h : Quoted v t) (r : List Char) : CallFree (t ++ r) := by
  cases h with
  | mk hq _ => rcases hq with rfl | rfl <;> exact callFree_cons (by decide) (by decide) _

/-- No printed expression is a call, so it is never taken for a class helper. -/
theorem callFree_reads {k : Nat} {e : Expression} {t : List Char} (h : Reads k e t) : CallFree t := by
  have hcompare (negated : Bool) : ∃ c r, comparison negated = c :: r ∧ isSign c = true ∧ c ≠ '(' := by
    cases negated <;> exact ⟨_, _, rfl, by decide, by decide⟩
  induction h with
  | path _ hp _ => exact .bare (isPath_paren_notMem hp)
  | str _ hq => simpa using callFree_quoted hq []
  | markup _ hm =>
    obtain ⟨m, rfl⟩ := List.head?_eq_some_iff.1 hm.head
    exact callFree_cons (by decide) (by decide) m
  | absent _ hw => exact .bare (paren_notMem_name (of_mem_absentWords _ hw).1)
  | @compare _ negated x _ p q l _ hx _ _ hp _ =>
    obtain ⟨c, r, hr, hs, hc⟩ := hcompare negated
    rw [hr]
    exact CallFree.append (.bare (paren_notMem_name hx)) hp hs hc _
  | @flipped _ negated x _ p q l _ _ _ hv hp _ =>
    obtain ⟨c, r, hr, hs, hc⟩ := hcompare negated
    rw [hr]
    cases hv with
    | str hq => exact callFree_quoted hq _
    | num hd _ _ =>
      refine CallFree.append (.bare fun hm => ?_) hp hs hc _
      rcases hd _ hm with h | h <;> exact absurd h (by decide)
  | not => exact callFree_cons (by decide) (by decide) _
  | @join _ j _ _ _ p q t _ _ _ hp _ iha _ =>
    have hs : isSign j.char = true ∧ j.char ≠ '(' := by cases j <;> decide
    exact iha.append hp hs.1 hs.2 (j.char :: (q ++ t))
  | cond _ _ _ hp _ _ _ ihc _ _ => exact ihc.append hp (by decide) (by decide) _
  | paren => exact .group _

theorem mem_trim {c : Char} {t : List Char} (h : c ∈ t) (hb : isBlank c = false) : c ∈ trim t := by
  obtain ⟨u, v, hu, hv, he⟩ := exists_pad t
  rw [he, List.mem_append, List.mem_append] at h
  rcases h with h | h | h
  · simp [hu c h] at hb
  · exact h
  · simp [hv c h] at hb

/-- Without a call there are no arguments of a helper. -/
theorem helperArguments?_eq_none {t : List Char} (h : CallFree t) : helperArguments? t = none := by
  have hnone {i : Nat} (hn : isIdentifier (trim (t.take i)) = false) :
      classHelpers.contains (String.ofList (trim (t.take i))) = false := by
    rw [← Bool.not_eq_true, List.contains_iff_mem]
    intro hm
    have := isIdentifier_of_mem_classHelpers _ hm
    simp [hn] at this
  cases hf : find? ['('] t with
  | none => simp [helperArguments?, hf]
  | some i =>
    suffices hn : isIdentifier (trim (t.take i)) = false by
      have := hnone hn
      simp only [helperArguments?, hf, Option.bind_eq_bind, Option.bind_some, this]
      rfl
    cases h with
    | bare ht =>
      have hfind : find? ['('] (t ++ []) = none := by
        rw [find?_plain ht]
        rfl
      rw [List.append_nil] at hfind
      simp [hfind] at hf
    | group t =>
      have hfind : find? ['('] ('(' :: t) = some 0 := find?_of_notMem (w := []) (by simp) t
      rw [hfind, Option.some.injEq] at hf
      rw [← hf]
      rfl
    | @sign a c b ha hs hc =>
      have hfront : '(' ∉ a ++ [c] := by simp [ha, Ne.symm hc]
      have htext : a ++ c :: b = (a ++ [c]) ++ b := by simp
      rw [htext, find?_plain hfront] at hf
      obtain ⟨n, -, rfl⟩ := Option.map_eq_some_iff.1 hf
      have hmem : c ∈ (a ++ c :: b).take ((a ++ [c]).length + n) := by
        rw [htext, List.take_length_add_append]
        simp
      simp only [isSign, Bool.and_eq_true, Bool.not_eq_true'] at hs
      rw [← Bool.not_eq_true]
      intro hi
      have := isIdentifierChar_of_mem hi (mem_trim hmem hs.1.1.1)
      simp [hs.1.1.2] at this

/-! ### One step -/

theorem joinedItems?_of_head {t : List Char} (h : t.head? ≠ some '[') : joinedItems? t = none := by
  have hb : (t.head? != some '[') = true := by simpa using h
  simp only [joinedItems?, hb, if_true]

/-- Nothing is joined behind an array. -/
theorem joinedItems?_group {inner : List Char} (h : Sealed [] inner) :
    joinedItems? ('[' :: (inner ++ [']'])) = none := by
  have hclose : balancedEnd? ('[' :: (inner ++ [']'])) 0 = some (inner.length + 1) := by
    simp [balancedEnd?, balancedLength?_group (by decide : closingFor? '[' = some ']') h]
  simp [joinedItems?, hclose, trimStart]

/-- What starts with no quote and no parenthesis is no text in quotes and stands in no parentheses. -/
theorem unquoted_of_head {t : List Char} {d : Char} (ht : Trimmed t) (hd : t.head? = some d)
    (hq : isQuote d = false) (hp : d ≠ '(') :
    stripOuterParens t = t ∧ t.isEmpty = false ∧ stringLiteral? t = none ∧
      isTemplateLiteral t = false := by
  have hhead : ∀ c ∈ (trim t).head?, isQuote c = false := by
    rw [ht.trim_eq, hd]
    rintro c ⟨⟩
    exact hq
  refine ⟨stripOuterParens_of_not_group ht (isGroup_of_head ?_), ?_, stringLiteral?_of_head hhead,
    isTemplateLiteral_of_head hhead⟩
  · rw [hd]
    simpa using hp
  · cases t with
    | nil => cases hd
    | cons => rfl

section
variable {rs : List (List Char)}

/-- The classes of an array are those of its items, each read one level further in. -/
theorem argument_array (h : ∀ r ∈ rs, IsItem r) (fuel : Nat) :
    argument attributes (fuel + 1) ('[' :: (listed rs ++ [']'])) =
      Extraction.mergeAll ((rs.map trim).map (argument attributes fuel)) := by
  have hs := sealed_listed h
  have hhelp := helperArguments?_eq_none
    (callFree_cons (c := '[') (by decide) (by decide) (listed rs ++ [']']))
  have hgroup : isGroup '[' ('[' :: (listed rs ++ [']'])) = true := isGroup_bracket (by decide) hs
  obtain ⟨hstrip, hne, hstr, htpl⟩ := unquoted_of_head
    (closed_bracket (by decide : closingFor? '[' = some ']') h).trimmed rfl (by decide) (by decide)
  simp only [argument, hstrip, hne, hstr, htpl, hhelp, joinedItems?_group hs, hgroup, groupInner_bracket,
    Option.none_or, Bool.false_eq_true, if_false, if_true, splitTopLevel_listed h]

/-- The classes of a call are those of its arguments, whatever the name of the helper. -/
theorem argument_call {name : String} {p : List Char} (hn : name ∈ classHelpers) (hp : Blank p)
    (h : ∀ r ∈ rs, IsItem r) (fuel : Nat) :
    argument attributes (fuel + 1) (name.toList ++ (p ++ '(' :: (listed rs ++ [')']))) =
      Extraction.mergeAll ((rs.map trim).map (argument attributes fuel)) := by
  have hs := sealed_listed h
  have hname := isIdentifier_of_mem_classHelpers name hn
  have hhelp : helperArguments? (name.toList ++ (p ++ '(' :: (listed rs ++ [')']))) =
      some (listed rs) := by
    generalize listed rs = inner at hs
    have hfront : '(' ∉ name.toList ++ p := by
      simp [paren_notMem_name hname, paren_notMem_blank hp]
    have htrim : trim (name.toList ++ p) = name.toList := by
      simpa using trim_pad blank_nil (trimmed_of_isIdentifier hname) hp
    have htext : name.toList ++ (p ++ '(' :: (inner ++ [')'])) =
        (name.toList ++ p) ++ '(' :: (inner ++ [')']) := by simp
    rw [htext, helperArguments?, find?_of_notMem hfront]
    generalize name.toList ++ p = front at htrim
    have hclose : balancedEnd? (front ++ '(' :: (inner ++ [')'])) front.length =
        some (front.length + (inner.length + 1)) := by
      simp [balancedEnd?, balancedLength?_group (by decide : closingFor? '(' = some ')') hs]
    have hslice : slice (front ++ '(' :: (inner ++ [')'])) (front.length + 1)
        (front.length + (inner.length + 1)) = inner := by
      have hcut := slice_append_left (front ++ ['(']) inner [')']
      simpa [Nat.add_assoc, Nat.add_comm 1] using hcut
    have hlen : front.length + (inner.length + 1) + 1 = (front ++ '(' :: (inner ++ [')'])).length := by
      simp
      omega
    simp only [Option.bind_eq_bind, Option.bind_some, List.take_left, htrim, String.ofList_toList,
      List.contains_iff_mem.2 hn, hclose, hslice, ← hlen, BEq.rfl, Bool.not_true, Bool.false_eq_true,
      if_false, if_true]
  obtain ⟨c, r, hc⟩ : ∃ c r, name.toList = c :: r := by
    cases hl : name.toList with
    | nil => exact absurd hl (ne_nil_of_isIdentifier hname)
    | cons c r => exact ⟨c, r, rfl⟩
  have hchar : isIdentifierChar c = true := isIdentifierChar_of_mem hname (by simp [hc])
  obtain ⟨hstrip, hne, hstr, htpl⟩ := unquoted_of_head (closed_call hn hp h).trimmed (d := c)
    (by simp [hc])
    (isQuote_eq_false (isOrdinary_of_isIdentifierChar hchar))
    (ne_of_isIdentifierChar hchar (by decide))
  simp only [argument, hstrip, hne, hstr, htpl, hhelp, Option.some_or, Bool.false_eq_true, if_false,
    splitTopLevel_listed h]

/-- The classes of an object are those of its entries. -/
theorem argument_object (h : ∀ r ∈ rs, IsItem r) (fuel : Nat) :
    argument attributes (fuel + 1) ('\x7b' :: (listed rs ++ ['\x7d'])) =
      Extraction.mergeAll ((rs.map trim).map (entry attributes)) := by
  have hhelp := helperArguments?_eq_none
    (callFree_cons (c := '\x7b') (by decide) (by decide) (listed rs ++ ['\x7d']))
  have hjoin : joinedItems? ('\x7b' :: (listed rs ++ ['\x7d'])) = none :=
    joinedItems?_of_head (by simp)
  have hsquare : isGroup '[' ('\x7b' :: (listed rs ++ ['\x7d'])) = false := isGroup_of_head (by simp)
  have hgroup : isGroup '\x7b' ('\x7b' :: (listed rs ++ ['\x7d'])) = true :=
    isGroup_bracket (by decide) (sealed_listed h)
  obtain ⟨hstrip, hne, hstr, htpl⟩ := unquoted_of_head
    (closed_bracket (by decide : closingFor? '\x7b' = some '\x7d') h).trimmed rfl (by decide) (by decide)
  simp only [argument, hstrip, hne, hstr, htpl, hhelp, hjoin, hsquare, hgroup, groupInner_bracket,
    Option.none_or, Bool.false_eq_true, if_false, if_true, splitTopLevel_listed h]

end

/-- An entry is cut at its colon. -/
theorem entry_parts {key gap space s : List Char} (hkey : Trimmed key) (hne : key ≠ [])
    (hsealed : Sealed [':'] key) (hdot : key.head? ≠ some '.') (hgap : Blank gap) (hspace : Blank space)
    (hs : Trimmed s) : entry attributes (key ++ (gap ++ ':' :: (space ++ s))) =
      if key.head? == some '[' then
        if isTemplateLiteral ((balancedInner? key 0).getD []) then
          template ((balancedInner? key 0).getD []) (some s)
        else medium "Computed class key" (key ++ (gap ++ ':' :: (space ++ s))) none
      else conditionals attributes s ((stringLiteral? key).getD key) := by
  have hpad : Sealed [':'] (key ++ gap) := hsealed.append (sealed_of_blank hgap (by decide))
  have hcut : Cutting [':'] ':' := ⟨by simp, by decide, by decide⟩
  have htext : key ++ (gap ++ ':' :: (space ++ s)) = (key ++ gap) ++ ':' :: ([] ++ (space ++ s)) := by
    simp
  have hfind : findTopLevel? (key ++ (gap ++ ':' :: (space ++ s))) [':'] =
      some (key ++ gap).length := by
    rw [htext]
    exact hpad.findTopLevel?_append hcut [] (space ++ s)
  have hspread : startsWith (key ++ (gap ++ ':' :: (space ++ s))) "...".toList = false := by
    have hhead : (key ++ (gap ++ ':' :: (space ++ s))).head? ≠ some '.' := by
      cases key with
      | nil => exact absurd rfl hne
      | cons c key => exact hdot
    exact startsWith_of_head hhead ['.', '.']
  have hfront : trim ((key ++ (gap ++ ':' :: (space ++ s))).take (key ++ gap).length) = key := by
    rw [htext, List.take_left]
    simpa using trim_pad blank_nil hkey hgap
  have hback : trim ((key ++ (gap ++ ':' :: (space ++ s))).drop ((key ++ gap).length + 1)) = s := by
    have hdrop : (key ++ (gap ++ ':' :: (space ++ s))).drop ((key ++ gap).length + 1) = space ++ s := by
      rw [htext, ← List.drop_drop, List.drop_left]
      rfl
    rw [hdrop]
    simpa using trim_pad hspace hs blank_nil
  simp only [entry, hspread, hfind, hfront, hback, Bool.false_eq_true, if_false]

/-- An entry is its key under its condition. -/
theorem entry_inner (x : Entry) :
    entry attributes x.inner = conditionals attributes x.text x.key.toList := by
  have hhead {d : Char} (hd : isQuote d = false) : x.quoted.head? ≠ some d := by
    simpa using x.quotes.head?_ne hd []
  have hcomputed : (x.quoted.head? == some '[') = false := by simpa using hhead (d := '[') (by decide)
  rw [Entry.inner, entry_parts x.quotes.edged.trimmed x.quotes.edged.ne_nil x.quotes.sealed
    (hhead (by decide)) x.blank_gap x.blank_space x.reads.edged.trimmed]
  simp only [hcomputed, x.quotes.stringLiteral?_eq, Bool.false_eq_true, if_false, Option.getD_some]

/-! ### Base classes -/

theorem tidy_of_base {e : Extraction} (h : e.base = []) : e.Tidy := by
  simp [Extraction.Tidy, h]

theorem tidy_conditional (t : List Char) (w : String) : (conditional attributes t w).Tidy := by
  refine tidy_of_base ?_
  rw [conditional]
  split <;> rfl

theorem tidy_conditionals (t s : List Char) : (conditionals attributes t s).Tidy := by
  refine Extraction.tidy_mergeAll fun x hx => ?_
  obtain ⟨w, -, rfl⟩ := List.mem_map.1 hx
  exact tidy_conditional t w

theorem tidy_template (t : List Char) (c : Option (List Char)) : (template t c).Tidy := by
  refine tidy_of_base ?_
  rw [template]
  split <;> rfl

theorem tidy_branch (t s : List Char) : (branch attributes t s).Tidy := by
  rw [branch]
  split
  · exact Extraction.tidy_empty
  · split
    · exact tidy_conditionals _ _
    · split
      · exact tidy_template _ _
      · exact tidy_of_base rfl

theorem tidy_entry (t : List Char) : (entry attributes t).Tidy := by
  rw [entry]
  split
  · exact tidy_of_base rfl
  · cases findTopLevel? t [':']
    all_goals
      dsimp only
      split
      · split
        · exact tidy_template _ _
        · exact tidy_of_base rfl
      · exact tidy_conditionals _ _

/-- Base classes are single words, whatever the text. -/
theorem tidy_argument (fuel : Nat) (t : List Char) : (argument attributes fuel t).Tidy := by
  induction fuel generalizing t with
  | zero => exact Extraction.tidy_empty
  | succ fuel ih =>
    have heach (items : List Char) : (Extraction.mergeAll
        ((splitTopLevel items [',']).map (argument attributes fuel))).Tidy := by
      refine Extraction.tidy_mergeAll fun x hx => ?_
      obtain ⟨u, -, rfl⟩ := List.mem_map.1 hx
      exact ih u
    rw [argument]
    dsimp only
    split
    · exact Extraction.tidy_empty
    split
    · intro c hc
      exact isToken_of_mem_tokens ((mem_appendNew.1 hc).resolve_left (by simp))
    split
    · exact tidy_template _ _
    split
    · exact heach _
    split
    · exact heach _
    split
    · refine Extraction.tidy_mergeAll fun x hx => ?_
      obtain ⟨u, -, rfl⟩ := List.mem_map.1 hx
      exact tidy_entry u
    split
    · exact (tidy_branch _ _).merge (tidy_branch _ _)
    split
    · rename_i found hfound
      rw [conjunction] at hfound
      split at hfound
      · obtain ⟨v, -, rfl⟩ := Option.map_eq_some_iff.1 hfound
        exact tidy_branch _ _
      · cases hfound
    split <;> exact tidy_of_base rfl

/-! ### Classes under a condition -/

/-- A text of a condition. A property that it compares alone by `!==` holds one of its values. -/
structure Tests (attributes : List Attribute) (env : String → Json) (c : Expression)
    (t : List Char) : Prop where
  reads : Reads 0 c t
  isCondition : c.isCondition = true
  no_props : ¬ propsHead <:+: t
  enumerated : ∀ x l, c = .compare true x l → Enumerated attributes env x l

section
variable {c : Expression} {t : List Char} {d : String}

/-- A class under a condition is there just when the condition is true, if nothing came up for
review. -/
theorem present_conditional {cssClass : String} (h : Tests attributes env c t)
    (hr : (conditional attributes t cssClass).review = []) :
    (conditional attributes t cssClass).Present (CodeHolds env) env d ↔
      d = cssClass ∧ c.truth env = true := by
  rw [conditional, h.reads.edged.trimmed.trim_eq] at hr ⊢
  dsimp only at hr ⊢
  split at hr
  · rename_i triggers hok
    rw [← anyHolds_classifyCondition h.reads h.isCondition h.no_props h.enumerated hok]
    constructor
    · rintro (hb | ⟨r, hmem, hholds, rfl⟩)
      · cases hb
      · obtain ⟨p, hp, rfl⟩ := List.mem_map.1 hmem
        exact ⟨rfl, p, hp, hholds⟩
    · rintro ⟨rfl, p, hp, hholds⟩
      exact .inr ⟨_, List.mem_map.2 ⟨p, hp, rfl⟩, hholds, rfl⟩
  · cases hr

theorem present_conditionals {s : List Char} (h : Tests attributes env c t)
    (hr : (conditionals attributes t s).review = []) :
    (conditionals attributes t s).Present (CodeHolds env) env d ↔
      d ∈ tokens (String.ofList s) ∧ c.truth env = true := by
  have hone {w : String} (hw : w ∈ tokens (String.ofList s)) :
      (conditional attributes t w).Present (CodeHolds env) env d ↔ d = w ∧ c.truth env = true :=
    present_conditional h (Extraction.review_mergeAll_map hr w hw)
  rw [conditionals, Extraction.present_mergeAll_map fun w _ => tidy_conditional t w]
  constructor
  · rintro ⟨w, hw, hpresent⟩
    obtain ⟨rfl, htrue⟩ := (hone hw).1 hpresent
    exact ⟨hw, htrue⟩
  · rintro ⟨hd, htrue⟩
    exact ⟨d, hd, (hone hd).2 ⟨rfl, htrue⟩⟩

theorem quoted_of_reads {k : Nat} {v : String} {s : List Char} (h : Reads k (.str v) s)
    (hg : isGroup '(' s = false) : Quoted v.toList s := by
  cases h with
  | str _ hq => exact hq
  | paren _ he hp hq =>
    rw [isGroup_paren he.nested hp hq] at hg
    cases hg

/-- Only the empty text is nothing. -/
theorem eq_nil_of_isNothing {s v : List Char} (h : isNothing s = true)
    (hv : stringLiteral? s = some v) : v = [] := by
  have hall : ∀ w ∈ ["undefined", "null", "false", "\'\'", "\"\""],
      (stringLiteral? w.toList).getD [] = [] := by decide
  obtain ⟨w, hw, hs⟩ := List.any_eq_true.1 h
  rw [beq_iff_eq] at hs
  have := hall w hw
  rwa [← hs, hv] at this

theorem present_branch {k : Nat} {v : String} {s : List Char} (h : Tests attributes env c t)
    (hs : Reads k (.str v) s) (hr : (branch attributes t s).review = []) :
    (branch attributes t s).Present (CodeHolds env) env d ↔ d ∈ tokens v ∧ c.truth env = true := by
  obtain ⟨hstrip, hg, -⟩ := hs.strip
  have hlit := (quoted_of_reads hstrip hg).stringLiteral?_eq
  rw [branch] at hr ⊢
  by_cases hn : isNothing (stripOuterParens s) = true
  · have hv : v = "" := by simpa using eq_nil_of_isNothing hn hlit
    rw [if_pos hn, hv]
    simp [Extraction.not_present_empty, tokens, words, wordsFrom]
  · simp only [if_neg hn, hlit] at hr ⊢
    rw [present_conditionals h hr, String.ofList_toList]

end

/-! ### Values -/

theorem not_props_negated {t : List Char} (h : ¬ propsHead <:+: t) :
    ¬ propsHead <:+: "!(".toList ++ t ++ [')'] := by
  have htext : "!(".toList ++ t ++ [')'] = ['!'] ++ '(' :: (t ++ ')' :: []) := by simp
  rw [htext]
  intro hi
  have hone : ¬ propsHead <:+: ['!'] := by decide
  have hi := (infix_append_cons (by decide) hi).resolve_left hone
  rcases infix_append_cons (by decide) hi with hi | hi
  · exact h hi
  · exact absurd hi (by decide)

theorem Tests.negate {c : Expression} {t : List Char} (h : Tests attributes env c t) :
    Tests attributes env (.not c) ("!(".toList ++ t ++ [')']) where
  reads := h.reads.negate.mono (by omega)
  isCondition := h.isCondition
  no_props := not_props_negated h.no_props
  enumerated := fun _ _ he => by cases he

/-- Operators behind a literal make it no literal. -/
theorem unquoted_of_front {t rest : List Char} (h : Front t) (hne : rest ≠ [])
    (ht : Trimmed (t ++ rest)) :
    stringLiteral? (t ++ rest) = none ∧ isTemplateLiteral (t ++ rest) = false := by
  have hnone := h.singleLiteral?_append hne ht
  exact ⟨stringLiteral?_eq_none ht hnone, by simp [isTemplateLiteral, hnone]⟩

/-- What is neither a text in quotes nor a list is a conditional or a conjunction. -/
theorem argument_operators {t s : List Char} (he : Edged s) (hc : CallFree s)
    (ht : stripOuterParens t = s) (hs : stringLiteral? s = none ∧ isTemplateLiteral s = false)
    (fuel : Nat) :
    argument attributes (fuel + 1) t = match splitTernary? s with
      | some (c, yes, no) => (branch attributes c yes).merge
          (branch attributes ("!(".toList ++ c ++ [')']) no)
      | none => match conjunction attributes s with
        | some found => found
        | none =>
          if isMemberPath s then { computed := [String.ofList (stripProps s)] }
          else medium "Unsupported class expression" s
            (some "Add the class logic to the template by hand") := by
  have hhead {d : Char} (hd : isEdge d = false) (hb : isBlank d = false) : s.head? ≠ some d := by
    simpa using he.head?_pad_ne blank_nil hd hb
  have hne : s.isEmpty = false := by simpa using he.ne_nil
  have hhelp := helperArguments?_eq_none hc
  have hjoin := joinedItems?_of_head (hhead (d := '[') (by decide) (by decide))
  have hsquare := isGroup_of_head (hhead (d := '[') (by decide) (by decide))
  have hbrace := isGroup_of_head (hhead (d := '\x7b') (by decide) (by decide))
  rcases hcut : splitTernary? s with _ | ⟨condition, yes, no⟩ <;>
    cases hguard : conjunction attributes s <;>
    simp only [argument, ht, hne, hs.1, hs.2, hhelp, hjoin, hsquare, hbrace, hcut, hguard,
      Option.none_or, Bool.false_eq_true, if_false]

/-- A class behind `&&` is there just when what stands before it is true. -/
theorem present_conjunction {c : Expression} {v d : String} {t s : List Char}
    (h : Reads 0 (.join .conj c (.str v)) s) (ht : stripOuterParens t = s)
    (hg : isGroup '(' s = false) (hc : c.isCondition = true) (hp : ¬ propsHead <:+: s)
    (henum : ∀ x l, c = .compare true x l → Enumerated attributes env x l) {fuel : Nat}
    (hr : (argument attributes (fuel + 1) t).review = []) :
    (argument attributes (fuel + 1) t).Present (CodeHolds env) env d ↔
      d ∈ tokens v ∧ c.truth env = true := by
  have hplain : stringLiteral? s = none ∧ isTemplateLiteral s = false := by
    have hedged := h.edged
    cases h with
    | join _ ha _ _ _ =>
      exact unquoted_of_front ha.front (by simp [Junction.symbol]) hedged.trimmed
    | paren _ he hu hq =>
      rw [isGroup_paren he.nested hu hq] at hg
      cases hg
  rw [argument_operators h.edged (callFree_reads h) ht hplain] at hr ⊢
  cases h.view hg with
  | cond he => cases he
  | whole _ _ _ hw _ =>
    cases hw with
    | join hk => exact absurd hk (by decide)
    | paren _ he hu hq =>
      rw [isGroup_paren he.nested hu hq] at hg
      cases hg
  | @chain j first rest hne he hternary _ _ htop hsplit hparts =>
    obtain ⟨init, last, rfl⟩ := (List.eq_nil_or_concat rest).resolve_left hne
    have hjoined : joined j first (init.concat last) = .join j (joined j first init) last.expr := by
      simp [joined]
    rw [hjoined] at he
    injection he with hj hcond hlast
    subst hj hcond
    have hmem : ∀ p ∈ first :: init, p ∈ first :: init.concat last := by
      intro p hp
      simp only [List.concat_eq_append, List.mem_cons, List.mem_append] at hp ⊢
      rcases hp with h | h <;> simp [h]
    have hprops : ∀ u ∈ (first :: init).map Piece.text, ¬ propsHead <:+: u := by
      intro u hu hi
      obtain ⟨p, hmem', rfl⟩ := List.mem_map.1 hu
      exact hp (hi.trans (hparts p (hmem p hmem')).1)
    have htests : Tests attributes env (joined .conj first init)
        (" && ".toList.intercalate ((first :: init).map Piece.text)) :=
      ⟨(reads_rejoined first init).mono (by omega), hc, not_props_rejoined hprops, henum⟩
    have hand : containsTopLevel s "&&".toList = true := htop
    have hcut : splitTopLevel s "&&".toList = (first :: init).map Piece.text ++ [last.text] := by
      have hcut : splitTopLevel s "&&".toList = (first :: init.concat last).map Piece.text := hsplit
      simpa using hcut
    have hconj : conjunction attributes s = some (branch attributes
        (" && ".toList.intercalate ((first :: init).map Piece.text)) last.text) := by
      simp only [conjunction, hand, if_true, hcut, List.getLast?_concat, List.dropLast_concat,
        Option.map_some]
    have hread : Reads _ (.str v) last.text := hlast ▸ last.reads
    simp only [hternary, hconj] at hr ⊢
    exact present_branch htests hread hr

/-- Of two classes in a conditional the condition picks one. -/
theorem present_ternary {c : Expression} {v w d : String} {t s : List Char}
    (h : Reads 0 (.cond c (.str v) (.str w)) s) (ht : stripOuterParens t = s)
    (hg : isGroup '(' s = false) (hc : c.isCondition = true) (hp : ¬ propsHead <:+: s)
    (henum : ∀ x l, c = .compare true x l → Enumerated attributes env x l) {fuel : Nat}
    (hr : (argument attributes (fuel + 1) t).review = []) :
    (argument attributes (fuel + 1) t).Present (CodeHolds env) env d ↔
      d ∈ tokens v ∧ c.truth env = true ∨ d ∈ tokens w ∧ c.truth env = false := by
  have hplain : stringLiteral? s = none ∧ isTemplateLiteral s = false := by
    have hedged := h.edged
    cases h with
    | cond hc _ _ _ _ _ _ => exact unquoted_of_front hc.front (by simp) hedged.trimmed
    | paren _ he hu hq =>
      rw [isGroup_paren he.nested hu hq] at hg
      cases hg
  rw [argument_operators h.edged (callFree_reads h) ht hplain] at hr ⊢
  cases h.view hg with
  | @cond c' a b u x y he hternary hu hx hy hparts =>
    cases he
    have htests : Tests attributes env c u :=
      ⟨hu.mono (by omega), hc, fun hi => hp (hi.trans (hparts u (by simp)).1), henum⟩
    simp only [hternary] at hr ⊢
    obtain ⟨hyes, hno⟩ := List.append_eq_nil_iff.1 hr
    rw [Extraction.present_merge (tidy_branch _ _), present_branch htests hx hyes,
      present_branch htests.negate hy hno]
    simp [Expression.truth]
  | @chain j first rest hne he =>
    obtain ⟨init, last, rfl⟩ := (List.eq_nil_or_concat rest).resolve_left hne
    simp [joined] at he
  | whole _ _ _ hw _ =>
    cases hw with
    | paren _ he hu hq =>
      rw [isGroup_paren he.nested hu hq] at hg
      cases hg

/-- A text, alone or under a condition, brings just its own classes. -/
theorem present_value {e : Expression} {t : List Char} {d : String} (h : Reads 0 e t)
    (hc : e.isClasses = true) (hp : ¬ propsHead <:+: t)
    (henum : ∀ x l, .compare true x l ∈ e.tested → Enumerated attributes env x l) {fuel : Nat}
    (hr : (argument attributes (fuel + 1) t).review = []) :
    (argument attributes (fuel + 1) t).Present (CodeHolds env) env d ↔ d ∈ e.classes env := by
  obtain ⟨hs, hg, hin⟩ := h.strip
  have hps : ¬ propsHead <:+: stripOuterParens t := fun hi => hp (hi.trans hin)
  match e with
  | .str v =>
    have hne : (stripOuterParens t).isEmpty = false := by simpa using hs.edged.ne_nil
    have hlit := (quoted_of_reads hs hg).stringLiteral?_eq
    simp only [argument, hne, hlit, String.ofList_toList, Bool.false_eq_true, if_false,
      Expression.classes]
    simp [Extraction.Present, Extraction.addBase, mem_appendNew]
  | .join .conj c (.str v) =>
    rw [present_conjunction hs rfl hg hc hps (fun x l he => henum x l (by simp [Expression.tested, he]))
      hr]
    cases hv : c.truth env <;> simp [Expression.classes, hv]
  | .cond c (.str v) (.str w) =>
    rw [present_ternary hs rfl hg hc hps (fun x l he => henum x l (by simp [Expression.tested, he]))
      hr]
    cases hv : c.truth env <;> simp [Expression.classes, hv]

/-! ### Objects and lists -/

theorem infix_listed {rs : List (List Char)} {r : List Char} (h : r ∈ rs) :
    r <:+: listed rs := by
  induction rs with
  | nil => cases h
  | cons s rs ih =>
    cases rs with
    | nil =>
      rw [List.mem_singleton.1 h]
      simp [listed, List.intercalate]
    | cons u rs =>
      have htext : listed (s :: u :: rs) = s ++ ([','] ++ listed (u :: rs)) := by
        simp [listed, List.intercalate]
      rw [htext]
      rcases List.mem_cons.1 h with rfl | h
      · exact (List.prefix_append _ _).isInfix
      · refine (ih h).trans ?_
        rw [← List.append_assoc]
        exact (List.suffix_append _ _).isInfix

theorem Slot.infix_listed {slots : List Slot} {s : Slot} (h : s ∈ slots) :
    s.text <:+: listed (slots.map Slot.raw) := by
  have hraw : s.text <:+: s.raw := ⟨s.before, s.after, by simp [Slot.raw]⟩
  exact hraw.trans (ClassExpression.infix_listed (List.mem_map.2 ⟨s, h, rfl⟩))

theorem Slot.within {slots : List Slot} {s : Slot} {t : List Char} {n : Nat} (h : s ∈ slots)
    (ht : listed (slots.map Slot.raw) <:+: t) (hl : (listed (slots.map Slot.raw)).length < t.length)
    (hp : ¬ propsHead <:+: t) (hn : t.length < n + 1) :
    ¬ propsHead <:+: s.text ∧ s.text.length < n := by
  have hin := Slot.infix_listed h
  have hlen := hin.length_le
  exact ⟨fun hi => hp (hi.trans (hin.trans ht)), by omega⟩

theorem Entry.infix_listed {entries : List Entry} {x : Entry} (h : x ∈ entries) :
    x.text <:+: listed (entries.map Entry.raw) := by
  have hraw : x.text <:+: x.raw :=
    ⟨x.before ++ (x.quoted ++ (x.gap ++ ':' :: x.space)), x.after, by simp [Entry.raw, Entry.inner]⟩
  exact hraw.trans (ClassExpression.infix_listed (List.mem_map.2 ⟨x, h, rfl⟩))

/-- An object brings the classes of the keys whose conditions are true. -/
theorem present_object {entries : List Entry} {d : String} {fuel : Nat}
    (htests : ∀ x ∈ entries, Tests attributes env x.condition x.text)
    (hr : (argument attributes (fuel + 1)
      ('\x7b' :: (listed (entries.map Entry.raw) ++ ['\x7d']))).review = []) :
    (argument attributes (fuel + 1)
        ('\x7b' :: (listed (entries.map Entry.raw) ++ ['\x7d']))).Present (CodeHolds env) env d ↔
      d ∈ (Part.object (entries.map fun x => (x.key, x.condition))).allClasses env := by
  have htrim : (entries.map Entry.raw).map trim = entries.map Entry.inner := by
    rw [List.map_map]
    exact List.map_congr_left fun x _ => x.trim_raw
  rw [argument_object (isItem_entries entries), htrim, List.map_map] at hr
  have hone : ∀ x ∈ entries, (entry attributes x.inner).Present (CodeHolds env) env d ↔
      d ∈ tokens x.key ∧ x.condition.truth env = true := by
    intro x hx
    have hreview : (entry attributes x.inner).review = [] :=
      Extraction.review_mergeAll_map hr x hx
    rw [entry_inner] at hreview ⊢
    rw [present_conditionals (htests x hx) hreview, String.ofList_toList]
  rw [argument_object (isItem_entries entries), htrim, List.map_map, Part.mem_allClasses_object,
    Extraction.present_mergeAll_map fun x _ => tidy_entry x.inner]
  constructor
  · rintro ⟨x, hx, hpresent⟩
    exact ⟨_, List.mem_map.2 ⟨x, hx, rfl⟩, (hone x hx).1 hpresent⟩
  · rintro ⟨_, hmem, hd⟩
    obtain ⟨x, hx, rfl⟩ := List.mem_map.1 hmem
    exact ⟨x, hx, (hone x hx).2 hd⟩

/-- A list keeps the classes of its items. -/
theorem present_several {slots : List Slot} {d : String} {fuel : Nat}
    (hr : (Extraction.mergeAll (slots.map fun s => argument attributes fuel s.text)).review = [])
    (hone : ∀ s ∈ slots, (argument attributes fuel s.text).review = [] →
      ((argument attributes fuel s.text).Present (CodeHolds env) env d ↔ d ∈ s.argument.allClasses env)) :
    (Extraction.mergeAll (slots.map fun s => argument attributes fuel s.text)).Present
        (CodeHolds env) env d ↔ d ∈ (Argument.several (slots.map Slot.argument)).allClasses env := by
  have hitem : ∀ s ∈ slots, ((argument attributes fuel s.text).Present (CodeHolds env) env d ↔
      d ∈ s.argument.allClasses env) := fun s hs => hone s hs (Extraction.review_mergeAll_map hr s hs)
  rw [Extraction.present_mergeAll_map fun s _ => tidy_argument fuel s.text]
  rw [Argument.mem_allClasses_several]
  constructor
  · rintro ⟨s, hs, hpresent⟩
    exact ⟨s.argument, List.mem_map.2 ⟨s, hs, rfl⟩, (hitem s hs).1 hpresent⟩
  · rintro ⟨_, hmem, hd⟩
    obtain ⟨s, hs, rfl⟩ := List.mem_map.1 hmem
    exact ⟨s, hs, (hitem s hs).2 hd⟩

/-! ### All arguments -/

/-- Followed through as many nested arguments as the text is long, an argument gives the classes of all
its entries. -/
theorem present_argument {a : Argument} {t : List Char} {d : String} {fuel : Nat} (h : Writes a t)
    (hp : ¬ propsHead <:+: t)
    (henum : ∀ x l, .compare true x l ∈ a.conditions → Enumerated attributes env x l)
    (hf : t.length < fuel) (hr : (argument attributes fuel t).review = []) :
    (argument attributes fuel t).Present (CodeHolds env) env d ↔ d ∈ a.allClasses env := by
  induction h generalizing fuel with
  | value hc hread =>
    obtain ⟨n, rfl⟩ := Nat.exists_eq_add_one_of_ne_zero (Nat.ne_zero_of_lt hf)
    rw [Argument.allClasses_part]
    exact present_value hread hc hp (fun x l hx => henum x l (by rwa [Argument.conditions_part])) hr
  | object entries =>
    obtain ⟨n, rfl⟩ := Nat.exists_eq_add_one_of_ne_zero (Nat.ne_zero_of_lt hf)
    rw [Argument.allClasses_part]
    refine present_object (fun x hx => ?_) hr
    refine ⟨x.reads, x.isCondition, fun hi => hp ?_, fun y l he => henum y l ?_⟩
    · exact (hi.trans (Entry.infix_listed hx)).trans ⟨['\x7b'], ['\x7d'], by simp⟩
    · rw [Argument.conditions_part, ← he]
      exact List.mem_map.2 ⟨_, List.mem_map.2 ⟨x, hx, rfl⟩, rfl⟩
  | @array slots hw ih =>
    obtain ⟨n, rfl⟩ := Nat.exists_eq_add_one_of_ne_zero (Nat.ne_zero_of_lt hf)
    have hclosed : ∀ s ∈ slots, Closed s.text := fun s hs => (hw s hs).closed
    rw [argument_array (isItem_slots hclosed), trim_slots hclosed, List.map_map] at hr ⊢
    refine present_several hr fun s hs hreview => ?_
    have hshort : (listed (slots.map Slot.raw)).length <
        ('[' :: (listed (slots.map Slot.raw) ++ [']'])).length := by
      simp only [List.length_cons, List.length_append]
      omega
    obtain ⟨hprops, hlen⟩ := Slot.within hs ⟨['['], [']'], by simp⟩ hshort hp hf
    have hmem : s.argument ∈ slots.map Slot.argument := List.mem_map.2 ⟨s, hs, rfl⟩
    exact ih s hs hprops
      (fun x l hx => henum x l (Argument.mem_conditions_several.2 ⟨_, hmem, hx⟩)) hlen hreview
  | @call name p slots hn hb hw ih =>
    obtain ⟨n, rfl⟩ := Nat.exists_eq_add_one_of_ne_zero (Nat.ne_zero_of_lt hf)
    have hclosed : ∀ s ∈ slots, Closed s.text := fun s hs => (hw s hs).closed
    rw [argument_call hn hb (isItem_slots hclosed), trim_slots hclosed, List.map_map] at hr ⊢
    refine present_several hr fun s hs hreview => ?_
    obtain ⟨hprops, hlen⟩ := Slot.within hs ⟨name.toList ++ (p ++ ['(']), [')'], by simp⟩
      (by simp; omega) hp hf
    have hmem : s.argument ∈ slots.map Slot.argument := List.mem_map.2 ⟨s, hs, rfl⟩
    exact ih s hs hprops
      (fun x l hx => henum x l (Argument.mem_conditions_several.2 ⟨_, hmem, hx⟩)) hlen hreview

/-- Where nothing is left for review, extraction finds the classes that the class helper puts together,
whatever values the properties have, exactly when no entry of an object adds a class that a later entry
of its key takes back. -/
theorem extract_keeps_classes_iff {attributes : List Attribute} {env : String → Json} {a : Argument}
    {t : List Char} (h : Writes a t) (hp : ¬ propsHead <:+: t)
    (henum : ∀ x l, .compare true x l ∈ a.conditions → Enumerated attributes env x l)
    (hr : (extract attributes t).review = []) :
    (∀ d, (extract attributes t).Present (CodeHolds env) env d ↔ d ∈ a.classes env) ↔
      a.allClasses env ⊆ a.classes env := by
  have hall (d : String) : (extract attributes t).Present (CodeHolds env) env d ↔
      d ∈ a.allClasses env := present_argument h hp henum (Nat.lt_succ_self _) hr
  constructor
  · intro hkeeps d hd
    exact (hkeeps d).1 ((hall d).2 hd)
  · intro hsub d
    rw [hall]
    exact ⟨fun hd => hsub hd, Argument.mem_allClasses_of_mem_classes⟩

/-! ### Two class helpers -/

def tightEntry (key : String) (hs : '\\' ∉ key.toList) (hq : '\x27' ∉ key.toList) {c : Expression}
    {text : List Char} (h : Reads 0 c text) (hc : c.isCondition = true) : Entry :=
  { key, condition := c, quoted := '\x27' :: (key.toList ++ ['\x27']), text, before := [], gap := []
    space := [], after := [], quotes := quoted_of_plain (.inl rfl) hs hq, reads := h, isCondition := hc
    blank_before := blank_nil, blank_gap := blank_nil, blank_space := blank_nil
    blank_after := blank_nil }

/-- A call with an object of two entries. -/
theorem writes_two_entries {x y : String} {c d : Expression} {s r t : List Char}
    (hx : '\\' ∉ x.toList ∧ '\x27' ∉ x.toList) (hy : '\\' ∉ y.toList ∧ '\x27' ∉ y.toList)
    (hs : Reads 0 c s) (hc : c.isCondition = true) (hr : Reads 0 d r) (hd : d.isCondition = true)
    (ht : t = "clsx(\x7b'".toList ++ (x.toList ++ ("':".toList ++ (s ++ (",'".toList ++ (y.toList ++
      ("':".toList ++ (r ++ "\x7d)".toList)))))))) :
    Writes (.several [.part (.object [(x, c), (y, d)])]) t := by
  let entries : List Entry := [tightEntry x hx.1 hx.2 hs hc, tightEntry y hy.1 hy.2 hr hd]
  let slot : Slot := ⟨.part (.object (entries.map fun x => (x.key, x.condition))), [],
    '\x7b' :: (listed (entries.map Entry.raw) ++ ['\x7d']), [], blank_nil, blank_nil⟩
  have hslot : ∀ s ∈ [slot], Writes s.argument s.text := by
    simpa using Writes.object entries
  have hcall : Writes _ ("clsx".toList ++ ([] ++ '(' :: (listed ([slot].map Slot.raw) ++ [')']))) :=
    .call (by decide) blank_nil hslot
  simpa [ht, slot, entries, tightEntry, listed, Slot.raw, Entry.raw, Entry.inner, List.intercalate]
    using hcall

def buttonSize : Attribute := { name := "size", types := [.enum], enumValues := ["sm", "lg"] }

def buttonText : List Char := "clsx(\x7b'big':size!=='sm','on':busy\x7d)".toList

def buttonValue (name : String) : Json := if name = "size" then .str "lg" else .bool true

/-- A button whose object brings one class by a comparison and one by a flag. -/
theorem button_keeps_classes :
    (extract [buttonSize] buttonText).review = [] ∧
      ∀ d, (extract [buttonSize] buttonText).Present (CodeHolds buttonValue) buttonValue d ↔
        d ∈ (Argument.several [.part (.object [("big", .compare true "size" (.str "sm")),
          ("on", .path "busy")])]).classes buttonValue := by
  have hsmall : Operand (.str "sm") ('\x27' :: ("sm".toList ++ ['\x27'])) :=
    .str (quoted_of_plain (.inl rfl) (by decide) (by decide))
  have hsize : Reads 0 (.compare true "size" (.str "sm")) _ :=
    .compare (by omega) (by decide) (by decide) hsmall blank_nil blank_nil
  have hbusy : Reads 0 (.path "busy") "busy".toList := .path (by omega) (.name (by decide)) (by decide)
  have hwrites := writes_two_entries (x := "big") (y := "on") (t := buttonText) (by decide) (by decide)
    hsize rfl hbusy rfl (by decide)
  have hreview : (extract [buttonSize] buttonText).review = [] := by
    rw [← List.isEmpty_iff]
    decide
  have hknown : Enumerated [buttonSize] buttonValue "size" (.str "sm") := by
    have hattr (a : Attribute) (ha : enumAttribute? [buttonSize] "size" = some a) : a = buttonSize :=
      (Option.some.inj ha).symm
    refine ⟨fun a ha => ?_, fun a ha v _ => ?_⟩
    · rw [hattr a ha]
      exact ⟨"lg", by decide, rfl⟩
    · rw [hattr a ha]
      exact .str
  refine ⟨hreview, (extract_keeps_classes_iff hwrites
    (not_infix_of_notMem (by decide)) (fun x l hx => ?_) hreview).2
    fun d hd => ?_⟩
  · have hmem : Expression.compare true x l ∈ [.compare true "size" (.str "sm"), .path "busy"] := hx
    simp only [List.mem_cons, Expression.compare.injEq, true_and, reduceCtorEq, List.not_mem_nil,
      or_false] at hmem
    rw [hmem.1, hmem.2]
    exact hknown
  · refine Argument.WellKeyed.mem_classes (fun p hp => ?_) hd
    simp only [Argument.parts, Argument.partsAll, List.append_nil, List.mem_singleton] at hp
    rw [hp]
    exact ⟨by decide, by decide⟩

/-- A class that the later entry of its key takes back is kept. -/
theorem repeated_key_keeps_class :
    ¬ ∀ (attributes : List Attribute) (env : String → Json) (a : Argument) (t : List Char),
      Writes a t → ¬ propsHead <:+: t →
      (∀ x l, .compare true x l ∈ a.conditions → Enumerated attributes env x l) →
      (extract attributes t).review = [] →
      ∀ d, (extract attributes t).Present (CodeHolds env) env d ↔ d ∈ a.classes env := by
  intro h
  have hx : Reads 0 (.path "x") "x".toList := .path (by omega) (.name (by decide)) (by decide)
  have hy : Reads 0 (.path "y") "y".toList := .path (by omega) (.name (by decide)) (by decide)
  have hwrites := writes_two_entries (x := "a") (y := "a") (t := "clsx(\x7b'a':x,'a':y\x7d)".toList)
    (by decide) (by decide) hx rfl hy rfl (by decide)
  have hreview : (extract [] "clsx(\x7b'a':x,'a':y\x7d)".toList).review = [] := by
    rw [← List.isEmpty_iff]
    decide
  have hconditions : ∀ p l, Expression.compare true p l ∉ (Argument.several [.part (.object
      [("a", .path "x"), ("a", .path "y")])]).conditions := by
    simp [Argument.conditions, Argument.parts, Argument.partsAll, Part.conditions]
  have hkeeps := h [] (fun p => .bool (p == "x")) _ _ hwrites
    (not_infix_of_notMem (by decide)) (fun p l hl => absurd hl (hconditions p l)) hreview "a"
  have hpresent : (extract [] "clsx(\x7b'a':x,'a':y\x7d)".toList).Present
      (CodeHolds fun p => .bool (p == "x")) (fun p => .bool (p == "x")) "a" :=
    (present_argument hwrites (not_infix_of_notMem (by decide))
      (fun p l hl => absurd hl (hconditions p l)) (Nat.lt_succ_self _) hreview).2 (by decide)
  exact absurd (hkeeps.1 hpresent) (by decide)

end JsxToJinja.ClassExpression
