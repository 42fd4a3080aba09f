import JsxToJinja.Proofs.Classes.TemplateGuards

/-! Template literals in the arguments of a class helper: alone, under conditions joined by `&&`, on
one side of a conditional, or as the key of an object. Extraction files each under a text of its
condition, so the rules that its expansion gives hold as the literal says. -/
namespace JsxToJinja.ClassExpression
open JsxToJinja.Text JsxToJinja.Code

variable {attributes : List Attribute} {T : Template}

/-! ### Texts -/

/-- A literal, in parentheses or not. -/
inductive Written (T : Template) : List Char → Prop where
  | bare : Written T T.text
  | paren {p q u : List Char} : Written T u → Blank p → Blank q →
      Written T ('(' :: (p ++ (u ++ (q ++ [')']))))

/-- What may stand on a side of a conditional. -/
structure IsBranch (t : List Char) : Prop where
  edged : Edged t
  paired : Paired t
  sealed : Sealed [','] t

def rejoined (t : List Char) : List Char := " && ".toList.intercalate (splitTopLevel t "&&".toList)

def keyed (T : Template) (gap space s : List Char) : List Char :=
  ('[' :: (T.text ++ [']'])) ++ (gap ++ ':' :: (space ++ s))

/-- An argument in which a literal stands, its condition, and the text that the condition is filed
under. -/
inductive Uses (T : Template) : Option Expression → Option (List Char) → List Char → Prop where
  | alone {u : List Char} : Written T u → Uses T none none u
  | conjunction {c : Expression} {s p q u : List Char} : c.isCondition = true → Reads 2 c s →
      Blank p → Blank q → Written T u →
      Uses T (some c) (some (rejoined (s ++ p))) (s ++ (p ++ (Junction.conj.symbol ++ (q ++ u))))
  | consequent {c : Expression} {s p q u r w y : List Char} : c.isCondition = true → Reads 1 c s →
      Blank p → Blank q → Written T u → Blank r → Blank w → IsBranch y →
      Uses T (some c) (some s) (s ++ (p ++ '?' :: (q ++ (u ++ (r ++ ':' :: (w ++ y))))))
  | alternate {c : Expression} {s p q x r w u : List Char} : c.isCondition = true → Reads 1 c s →
      Blank p → Blank q → IsBranch x → Blank r → Blank w → Written T u →
      Uses T (some (.not c)) (some ("!(".toList ++ s ++ [')']))
        (s ++ (p ++ '?' :: (q ++ (x ++ (r ++ ':' :: (w ++ u))))))
  | key {c : Expression} {s before gap space after : List Char} {rs others : List (List Char)} :
      c.isCondition = true → Reads 0 c s → Blank before → Blank gap → Blank space → Blank after →
      (∀ r ∈ rs ++ others, IsItem r) →
      Uses T (some c) (some s) ('\x7b' :: (listed (rs ++ (before ++ (keyed T gap space s ++ after)) :: others) ++
        ['\x7d']))
  | paren {c : Option Expression} {s : Option (List Char)} {p q t : List Char} : Uses T c s t →
      Blank p → Blank q → Uses T c s ('(' :: (p ++ (t ++ (q ++ [')']))))

/-- A text among the arguments of arrays and of calls of class helpers. -/
inductive Inside (u : List Char) : List Char → Prop where
  | here : Inside u u
  | array {t p q : List Char} {rs others : List (List Char)} : Inside u t → Blank p → Blank q →
      (∀ r ∈ rs ++ others, IsItem r) →
      Inside u ('[' :: (listed (rs ++ (p ++ (t ++ q)) :: others) ++ [']']))
  | call {name : String} {t p q w : List Char} {rs others : List (List Char)} : Inside u t →
      Blank p → Blank q → (∀ r ∈ rs ++ others, IsItem r) → name ∈ classHelpers → Blank w →
      Inside u (name.toList ++ (w ++ '(' :: (listed (rs ++ (p ++ (t ++ q)) :: others) ++ [')'])))

theorem isItem_among {r : List Char} {rs others : List (List Char)} (h : ∀ r ∈ rs ++ others, IsItem r)
    (hr : IsItem r) : ∀ r' ∈ rs ++ r :: others, IsItem r' := by
  obtain ⟨hfront, hback⟩ := List.forall_mem_append.1 h
  exact List.forall_mem_append.2 ⟨hfront, List.forall_mem_cons.2 ⟨hr, hback⟩⟩

/-- A literal in parentheses closes its brackets, and the parentheses are taken off. -/
theorem Written.strip {u : List Char} (h : Written T u) :
    Edged u ∧ (∀ avoid, Sealed avoid u) ∧ stripOuterParens u = T.text := by
  induction h with
  | bare => exact ⟨edged_cons_concat (by decide) (by decide) T.inner,
      fun _ => sealed_literal (by decide) T.literalBody_inner, T.stripOuterParens_text⟩
  | @paren p q u _ hp hq ih =>
    obtain ⟨hedged, hsealed, hstrip⟩ := ih
    refine ⟨?_, fun _ => (hsealed []).paren hp hq, ?_⟩
    · rw [paren_text]
      exact edged_cons_concat (by decide) (by decide) _
    · rw [stripOuterParens_paren (hsealed []) hedged.trimmed hp hq, hstrip]

theorem Written.isBranch {u : List Char} (h : Written T u) : IsBranch u :=
  ⟨h.strip.1, (h.strip.2.1 ['?', ':']).paired (by simp) (by simp), h.strip.2.1 _⟩

/-! ### Values -/

theorem branch_written {u : List Char} (h : Written T u) (s : List Char) :
    branch attributes s u = template T.text (some s) := by
  have hsome : isNothing T.text = false := by simp [isNothing, Template.text]
  simp only [branch, h.strip.2.2, hsome, Bool.false_eq_true, if_false, T.stringLiteral?_text,
    T.isTemplateLiteral_text, if_true]

theorem argument_written {u : List Char} (h : Written T u) (fuel : Nat) :
    argument attributes (fuel + 1) u = template T.text none := by
  have hne : T.text.isEmpty = false := rfl
  simp only [argument, h.strip.2.2, hne, Bool.false_eq_true, if_false, T.stringLiteral?_text,
    T.isTemplateLiteral_text, if_true]

/-- The operands in front of the last `&&` are the condition. -/
theorem conjunction_written {c : Expression} {s p q u : List Char} (hr : Reads 2 c s) (hp : Blank p)
    (hq : Blank q) (h : Written T u) :
    conjunction attributes (s ++ (p ++ (Junction.conj.symbol ++ (q ++ u)))) =
      some (template T.text (some (rejoined (s ++ p)))) := by
  obtain ⟨first, rest, -, hchain⟩ := hr.chain (j := .conj) rfl hp
  have hraws : (first :: rest).map Piece.raw ≠ [] := by simp
  have htext : s ++ (p ++ (Junction.conj.symbol ++ (q ++ u))) =
      Junction.conj.symbol.intercalate ((first :: rest).map Piece.raw ++ [q ++ u]) := by
    rw [intercalate_concat hraws, ← chainText, ← hchain, List.append_assoc]
  have hfront : splitTopLevel (s ++ p) "&&".toList = (first :: rest).map Piece.text := by
    rw [hchain]
    exact splitTopLevel_chainText (j := .conj) (first :: rest)
  have hlast : Sealed ['&'] (q ++ u) :=
    (sealed_of_blank hq (by decide)).append (h.strip.2.1 ['&'])
  have hsplit : splitTopLevel (s ++ (p ++ (Junction.conj.symbol ++ (q ++ u)))) "&&".toList =
      (first :: rest).map Piece.text ++ [u] := by
    have hsealed : ∀ r ∈ (first :: rest).map Piece.raw ++ [q ++ u], Sealed ['&'] r := by
      intro r hr
      rcases List.mem_append.1 hr with hr | hr
      · obtain ⟨x, -, rfl⟩ := List.mem_map.1 hr
        exact x.sealed
      · exact List.mem_singleton.1 hr ▸ hlast
    have htrim : trim (q ++ u) = u := by simpa using trim_pad hq h.strip.1.trimmed blank_nil
    have hpieces : (((first :: rest).map Piece.raw ++ [q ++ u]).map trim) =
        (first :: rest).map Piece.text ++ [u] := by
      rw [List.map_append, List.map_map, List.map_singleton, htrim]
      exact congrArg (· ++ [u]) (List.map_congr_left fun x _ => x.trim_raw)
    have hne : ∀ r ∈ (first :: rest).map Piece.text ++ [u], (!r.isEmpty) = true := by
      intro r hr
      rcases List.mem_append.1 hr with hr | hr
      · obtain ⟨x, -, rfl⟩ := List.mem_map.1 hr
        simpa using x.reads.edged.ne_nil
      · simpa [List.mem_singleton.1 hr] using h.strip.1.ne_nil
    have hcut := splitTopLevel_intercalate (Junction.cutting .conj) (n := ['&']) (by decide) hsealed
    rw [htext]
    exact hcut.trans (by rw [hpieces, List.filter_eq_self.2 hne])
  have hand : containsTopLevel (s ++ (p ++ (Junction.conj.symbol ++ (q ++ u)))) "&&".toList = true := by
    have hmore : s ++ (p ++ (Junction.conj.symbol ++ (q ++ u))) =
        first.raw ++ (Junction.conj.symbol ++
          Junction.conj.symbol.intercalate (rest.map Piece.raw ++ [q ++ u])) := by
      rw [htext]
      cases rest <;> simp [List.intercalate]
    rw [hmore]
    exact first.sealed.containsTopLevel_append (Junction.cutting .conj) ['&'] _
  simp only [conjunction, hand, if_true, hsplit, List.getLast?_concat, List.dropLast_concat,
    Option.map_some, branch_written h, rejoined, hfront]

section
variable {c : Expression} {s gap space : List Char}

theorem sealed_key (T : Template) (avoid : List Char) : Sealed avoid ('[' :: (T.text ++ [']'])) :=
  Sealed.bracket (by decide) (sealed_literal (by decide) T.literalBody_inner)

theorem closed_keyed (hr : Reads 0 c s) (hc : c.isCondition = true) (hgap : Blank gap)
    (hspace : Blank space) : Closed (keyed T gap space s) := by
  have hpad {p : List Char} (hp : Blank p) : Sealed [','] p := sealed_of_blank hp (by decide)
  have hmark := Expression.hasMarkup_of_isCondition hc
  refine ⟨?_, by simp [keyed], ?_⟩
  · have hkey : Trimmed ('[' :: (T.text ++ [']'])) := trimmed_cons_concat (by decide) (by decide) _
    have := hkey.between hr.edged.trimmed (by simp) hr.edged.ne_nil (gap ++ ':' :: space)
    simpa [keyed] using this
  · exact (sealed_key T _).append ((hpad hgap).append (.plain (by decide) (by decide)
      ((hpad hspace).append (hr.sealed (by decide) (by simp [hmark])))))

/-- A key in brackets is the literal, and what follows the colon its condition. -/
theorem entry_keyed (hr : Reads 0 c s) (hgap : Blank gap) (hspace : Blank space) :
    entry attributes (keyed T gap space s) = template T.text (some s) := by
  have hkey : Trimmed ('[' :: (T.text ++ [']'])) := trimmed_cons_concat (by decide) (by decide) _
  have hinner : balancedInner? ('[' :: (T.text ++ [']'])) 0 = some T.text := by
    have hliteral : Sealed [] T.text := sealed_literal (by decide) T.literalBody_inner
    have hclose := balancedLength?_group (by decide : closingFor? '[' = some ']') hliteral []
    simp [balancedInner?, balancedEnd?, hclose, slice]
  rw [keyed, entry_parts hkey (by simp) (sealed_key T _) (by simp) hgap hspace hr.edged.trimmed]
  simp [hinner, T.isTemplateLiteral_text]

end

/-! ### Extraction -/

def Collects (T : Template) (s : Option (List Char)) (e : Extraction) : Prop :=
  ∃ before after, e.rules = before ++ ((template T.text s).rules ++ after)

theorem collects_template (T : Template) (s : Option (List Char)) : Collects T s (template T.text s) :=
  ⟨[], [], by simp⟩

section
variable {s : Option (List Char)} {e other : Extraction}

theorem Collects.merge_left (h : Collects T s e) (other : Extraction) :
    Collects T s (e.merge other) := by
  obtain ⟨before, after, hrules⟩ := h
  exact ⟨before, after ++ other.rules, by simp [Extraction.merge, hrules]⟩

theorem Collects.merge_right (h : Collects T s e) (other : Extraction) :
    Collects T s (other.merge e) := by
  obtain ⟨before, after, hrules⟩ := h
  exact ⟨other.rules ++ before, after, by simp [Extraction.merge, hrules]⟩

theorem Collects.mergeAll {es : List Extraction} (h : Collects T s e) (he : e ∈ es) :
    Collects T s (Extraction.mergeAll es) := by
  obtain ⟨before, after, hrules⟩ := h
  obtain ⟨l, r, rfl⟩ := List.append_of_mem he
  exact ⟨l.flatMap (·.rules) ++ before, after ++ r.flatMap (·.rules), by
    simp [Extraction.rules_mergeAll, hrules]⟩

end

/-- The sides of a conditional and the text in front of it. -/
theorem closed_conditional {c : Expression} {s p q x r w y : List Char} (hc : c.isCondition = true)
    (hr : Reads 1 c s) (hp : Blank p) (hq : Blank q) (hx : IsBranch x) (hr' : Blank r) (hw : Blank w)
    (hy : IsBranch y) : Edged (s ++ (p ++ '?' :: (q ++ (x ++ (r ++ ':' :: (w ++ y)))))) ∧
      Sealed [','] (s ++ (p ++ '?' :: (q ++ (x ++ (r ++ ':' :: (w ++ y)))))) := by
  have hpad {p : List Char} (hp : Blank p) : Sealed [','] p := sealed_of_blank hp (by decide)
  have hmark := Expression.hasMarkup_of_isCondition hc
  constructor
  · simpa using hr.edged.between hy.edged (p ++ '?' :: (q ++ (x ++ (r ++ ':' :: w))))
  · exact (hr.sealed (by decide) (by simp [hmark])).append ((hpad hp).append (.plain (by decide)
      (by decide) ((hpad hq).append (hx.sealed.append ((hpad hr').append (.plain (by decide)
        (by decide) ((hpad hw).append hy.sealed)))))))

theorem argument_conditional {c : Expression} {s p q x r w y : List Char} (hc : c.isCondition = true)
    (hr : Reads 1 c s) (hp : Blank p) (hq : Blank q) (hx : IsBranch x) (hr' : Blank r) (hw : Blank w)
    (hy : IsBranch y) (fuel : Nat) :
    argument attributes (fuel + 1) (s ++ (p ++ '?' :: (q ++ (x ++ (r ++ ':' :: (w ++ y)))))) =
      (branch attributes s x).merge (branch attributes ("!(".toList ++ s ++ [')']) y) := by
  have hedged := (closed_conditional hc hr hp hq hx hr' hw hy).1
  have hmark := Expression.hasMarkup_of_isCondition hc
  have hsplit := splitTernary?_parts hr.edged (hr.sealed (by decide) (by simp [hmark])) hx.edged
    hx.paired hy.edged hp hq hr' hw
  have hfree := (callFree_reads hr).append hp (c := '?') (by decide) (by decide)
    (q ++ (x ++ (r ++ ':' :: (w ++ y))))
  have hgroup := stripOuterParens_of_not_group hedged.trimmed (hr.front.isGroup_append (by simp))
  have hplain := unquoted_of_front hr.front (by simp) hedged.trimmed
  simp only [argument_operators hedged hfree hgroup hplain, hsplit]

/-- A place where a literal is used can stand in brackets among others. -/
theorem Uses.closed {c : Option Expression} {s : Option (List Char)} {t : List Char}
    (h : Uses T c s t) : Closed t := by
  have hpad {p : List Char} (hp : Blank p) : Sealed [','] p := sealed_of_blank hp (by decide)
  have hread {k : Nat} {c : Expression} {s : List Char} (hc : c.isCondition = true)
      (hr : Reads k c s) : Sealed [','] s := by
    have hmark := Expression.hasMarkup_of_isCondition hc
    exact (hr.mono (Nat.zero_le k)).sealed (by decide) (by simp [hmark])
  induction h with
  | alone hu => exact ⟨hu.strip.1.trimmed, hu.strip.1.ne_nil, hu.strip.2.1 _⟩
  | @conjunction c s p q u hc hr hp hq hu =>
    have hedged := hr.edged.between hu.strip.1 (p ++ (Junction.conj.symbol ++ q))
    simp only [List.append_assoc] at hedged
    refine ⟨hedged.trimmed, hedged.ne_nil, (hread hc hr).append ((hpad hp).append ?_)⟩
    exact (sealed_of_ordinary (by decide)).append ((hpad hq).append (hu.strip.2.1 _))
  | consequent hc hr hp hq hu hr' hw hy =>
    obtain ⟨hedged, hsealed⟩ := closed_conditional hc hr hp hq hu.isBranch hr' hw hy
    exact ⟨hedged.trimmed, hedged.ne_nil, hsealed⟩
  | alternate hc hr hp hq hx hr' hw hu =>
    obtain ⟨hedged, hsealed⟩ := closed_conditional hc hr hp hq hx hr' hw hu.isBranch
    exact ⟨hedged.trimmed, hedged.ne_nil, hsealed⟩
  | key hc hr hb hg hs ha hrs =>
    exact closed_bracket (by decide) (isItem_among hrs ((closed_keyed hr hc hg hs).isItem hb ha).1)
  | paren _ hp hq ih =>
    refine ⟨?_, by simp, (ih.sealed.mono (by simp)).paren hp hq⟩
    rw [paren_text]
    exact trimmed_cons_concat (by decide) (by decide) _

theorem infix_item (r : List Char) (rs others : List (List Char)) :
    r <:+: listed (rs ++ r :: others) := infix_listed (by simp)

/-- A condition is filed under a text of its own. -/
theorem Uses.filed {c : Option Expression} {s : Option (List Char)} {t : List Char}
    (h : Uses T c s t) (hp : ¬ propsHead <:+: t) : Filed c s := by
  induction h with
  | alone _ => exact .alone
  | @conjunction c s p q u hc hr hb _ _ =>
    obtain ⟨first, rest, rfl, hchain⟩ := hr.chain (j := .conj) rfl hb
    have hfront : splitTopLevel (s ++ p) "&&".toList = (first :: rest).map Piece.text := by
      rw [hchain]
      exact splitTopLevel_chainText (j := .conj) (first :: rest)
    rw [rejoined, hfront]
    refine .under ((reads_rejoined first rest).mono (by omega)) hc (not_props_rejoined ?_)
    intro r hr hi
    obtain ⟨x, hx, rfl⟩ := List.mem_map.1 hr
    have hin := hi.trans (Piece.infix_chainText (j := .conj) hx).1
    rw [← hchain] at hin
    exact hp (hin.trans ⟨[], Junction.conj.symbol ++ (q ++ u), by simp⟩)
  | @consequent c s p q u r w y hc hr _ _ _ _ _ _ =>
    exact .under (hr.mono (by omega)) hc fun hi => hp (hi.trans ⟨[], _, rfl⟩)
  | @alternate c s p q x r w u hc hr _ _ _ _ _ _ =>
    exact .under ((hr.mono (by omega)).negate.mono (by omega)) hc
      (not_props_negated fun hi => hp (hi.trans ⟨[], _, rfl⟩))
  | @key c s before gap space after rs others hc hr _ _ _ _ _ =>
    refine .under hr hc fun hi => hp (hi.trans ?_)
    have hkey : s <:+: before ++ (keyed T gap space s ++ after) :=
      ⟨before ++ ('[' :: (T.text ++ [']'])) ++ (gap ++ ':' :: space), after, by simp [keyed]⟩
    have hlist := hkey.trans (infix_item _ rs others)
    exact hlist.trans ⟨['\x7b'], ['\x7d'], by simp⟩
  | @paren _ _ p q t _ _ _ ih => exact ih fun hi => hp (hi.trans ⟨'(' :: p, q ++ [')'], by simp⟩)

/-- Extraction finds the literal under the text of its condition. -/
theorem Uses.collects {c : Option Expression} {s : Option (List Char)} {t : List Char}
    (h : Uses T c s t) (fuel : Nat) : Collects T s (argument attributes (fuel + 1) t) := by
  induction h with
  | alone hu =>
    rw [argument_written hu]
    exact collects_template T none
  | @conjunction c s p q u hc hr hp hq hu =>
    have hmark := Expression.hasMarkup_of_isCondition hc
    have hedged : Edged (s ++ (p ++ (Junction.conj.symbol ++ (q ++ u)))) := by
      simpa using hr.edged.between hu.strip.1 (p ++ (Junction.conj.symbol ++ q))
    have hquestion {r : List Char} (hr : Blank r) : Sealed ['?'] r := sealed_of_blank hr (by decide)
    have hternary : splitTernary? (s ++ (p ++ (Junction.conj.symbol ++ (q ++ u)))) = none := by
      have hsealed : Sealed ['?'] (s ++ (p ++ (Junction.conj.symbol ++ (q ++ u)))) :=
        (hr.sealed (by decide) (by simp [hmark])).append ((hquestion hp).append
          ((sealed_of_ordinary (by decide)).append ((hquestion hq).append (hu.strip.2.1 _))))
      exact hsealed.splitTernary?_eq_none (by simp)
    have hfree := (callFree_reads hr).append hp (c := '&') (by decide) (by decide) ('&' :: (q ++ u))
    have hgroup := stripOuterParens_of_not_group hedged.trimmed
      (hr.front.isGroup_append (by simp [Junction.symbol]))
    have hplain := unquoted_of_front hr.front (by simp [Junction.symbol]) hedged.trimmed
    simp only [argument_operators hedged hfree hgroup hplain, hternary, conjunction_written hr hp hq hu]
    exact collects_template T _
  | consequent hc hr hp hq hu hr' hw hy =>
    rw [argument_conditional hc hr hp hq hu.isBranch hr' hw hy, branch_written hu]
    exact (collects_template T _).merge_left _
  | alternate hc hr hp hq hx hr' hw hu =>
    rw [argument_conditional hc hr hp hq hx hr' hw hu.isBranch, branch_written hu]
    exact (collects_template T _).merge_right _
  | key hc hr hb hg hs ha hrs =>
    have hitem := (closed_keyed (T := T) hr hc hg hs).isItem hb ha
    rw [argument_object (isItem_among hrs hitem.1)]
    refine (collects_template T _).mergeAll (List.mem_map.2 ⟨_, List.mem_map.2 ⟨_, ?_, hitem.2⟩, ?_⟩)
    · simp
    · exact entry_keyed hr hg hs
  | @paren _ _ p q t ht hp hq ih =>
    have hstrip := stripOuterParens_paren (ht.closed.sealed.mono (by simp)) ht.closed.trimmed hp hq
    have hsame : argument attributes (fuel + 1) ('(' :: (p ++ (t ++ (q ++ [')'])))) =
        argument attributes (fuel + 1) t := by
      simp only [argument, hstrip]
    rw [hsame]
    exact ih

theorem Inside.closed {u t : List Char} (h : Inside u t) (hu : Closed u) : Closed t := by
  induction h with
  | here => exact hu
  | array _ hp hq hrs ih => exact closed_bracket (by decide) (isItem_among hrs (ih.isItem hp hq).1)
  | call _ hp hq hrs hn hw ih => exact closed_call hn hw (isItem_among hrs (ih.isItem hp hq).1)

/-- A use holds the text of its literal. -/
theorem Uses.infix_text {c : Option Expression} {s : Option (List Char)} {t : List Char}
    (h : Uses T c s t) : T.text <:+: t := by
  have hwritten {u : List Char} (hu : Written T u) : T.text <:+: u := by
    induction hu with
    | bare => exact List.infix_rfl
    | @paren p q u _ _ _ ih => exact ih.trans ⟨'(' :: p, q ++ [')'], by simp⟩
  induction h with
  | alone hu => exact hwritten hu
  | @conjunction c s p q u _ _ _ _ hu =>
    exact (hwritten hu).trans ⟨s ++ (p ++ (Junction.conj.symbol ++ q)), [], by simp⟩
  | @consequent c s p q u r w y _ _ _ _ hu _ _ _ =>
    exact (hwritten hu).trans ⟨s ++ (p ++ '?' :: q), r ++ ':' :: (w ++ y), by simp⟩
  | @alternate c s p q x r w u _ _ _ _ _ _ _ hu =>
    exact (hwritten hu).trans ⟨s ++ (p ++ '?' :: (q ++ (x ++ (r ++ ':' :: w)))), [], by simp⟩
  | @key c s before gap space after rs others _ _ _ _ _ _ _ =>
    have hkey : T.text <:+: before ++ (keyed T gap space s ++ after) :=
      ⟨before ++ ['['], [']'] ++ (gap ++ ':' :: (space ++ s)) ++ after, by simp [keyed]⟩
    exact hkey.trans ((infix_item _ rs others).trans ⟨['\x7b'], ['\x7d'], by simp⟩)
  | @paren _ _ p q t _ _ _ ih => exact ih.trans ⟨'(' :: p, q ++ [')'], by simp⟩

theorem Inside.infix_text {u t : List Char} (h : Inside u t) : u <:+: t := by
  induction h with
  | here => exact List.infix_rfl
  | @array t p q rs others _ _ _ _ ih =>
    have hitem : t <:+: p ++ (t ++ q) := ⟨p, q, by simp⟩
    exact ih.trans (hitem.trans ((infix_item _ rs others).trans ⟨['['], [']'], by simp⟩))
  | @call name t p q w rs others _ _ _ _ _ _ ih =>
    have hitem : t <:+: p ++ (t ++ q) := ⟨p, q, by simp⟩
    exact ih.trans (hitem.trans ((infix_item _ rs others).trans
      ⟨name.toList ++ (w ++ ['(']), [')'], by simp⟩))

/-- An item is no longer than its list. -/
theorem length_item_le (t p q : List Char) (rs others : List (List Char)) :
    t.length ≤ (listed (rs ++ (p ++ (t ++ q)) :: others)).length := by
  have hin := (infix_item (p ++ (t ++ q)) rs others).length_le
  simp only [List.length_append] at hin
  omega

/-- What is found in a text is found wherever it stands among arguments. -/
theorem Inside.collects {c : Option Expression} {s : Option (List Char)} {u t : List Char}
    (h : Inside u t) (hu : Uses T c s u) {fuel : Nat} (hf : t.length < fuel) :
    Collects T s (argument attributes fuel t) := by
  induction h generalizing fuel with
  | here =>
    obtain ⟨n, rfl⟩ := Nat.exists_eq_add_one_of_ne_zero (Nat.ne_zero_of_lt hf)
    exact hu.collects n
  | @array t p q rs others hin hp hq hrs ih =>
    obtain ⟨n, rfl⟩ := Nat.exists_eq_add_one_of_ne_zero (Nat.ne_zero_of_lt hf)
    have hitem := (hin.closed hu.closed).isItem hp hq
    have hlen : t.length < n := by
      have := length_item_le t p q rs others
      simp only [List.length_cons, List.length_append] at hf
      omega
    rw [argument_array (isItem_among hrs hitem.1)]
    exact (ih hlen).mergeAll (List.mem_map.2 ⟨t, List.mem_map.2 ⟨_, by simp, hitem.2⟩, rfl⟩)
  | @call name t p q w rs others hin hp hq hrs hn hw ih =>
    obtain ⟨n, rfl⟩ := Nat.exists_eq_add_one_of_ne_zero (Nat.ne_zero_of_lt hf)
    have hitem := (hin.closed hu.closed).isItem hp hq
    have hlen : t.length < n := by
      have := length_item_le t p q rs others
      simp only [List.length_cons, List.length_append] at hf
      omega
    rw [argument_call hn hw (isItem_among hrs hitem.1)]
    exact (ih hlen).mergeAll (List.mem_map.2 ⟨t, List.mem_map.2 ⟨_, by simp, hitem.2⟩, rfl⟩)

/-- Expansion puts the rules for the values where the literal was found. -/
theorem Collects.expanded {s : Option (List Char)} {e : Extraction} (h : Collects T s e) :
    ∃ before after, (e.expandTemplates attributes).rules =
      before ++ (valueRules attributes T s ++ after) := by
  obtain ⟨before, after, hrules⟩ := h
  refine ⟨before.flatMap fun r => (expandRule attributes r).rules,
    after.flatMap fun r => (expandRule attributes r).rules, ?_⟩
  rw [valueRules, Extraction.rules_expandTemplates, Extraction.rules_expandTemplates, hrules]
  simp

/-- A literal under a condition stands for one rule per value of its name. When the name has one of
its values, those that hold give the value of the literal where the condition is true, and none
elsewhere. The condition must be no disjunction, the literals it excludes must be of the kind of the
values, and where more than such literals is left of it, the values must be plain strings. -/
theorem expanded_rules_follow_literal {a : Attribute} {c : Option Expression}
    {s : Option (List Char)} {u t : List Char} (hu : Uses T c s u) (ht : Inside u t)
    (hp : ¬ propsHead <:+: t) (ha : enumAttribute? attributes T.name = some a)
    (hk : Keepable a T.name c s) :
    ∃ before after, ((extract attributes t).expandTemplates attributes).rules =
        before ++ (valueRules attributes T s ++ after) ∧
      ∀ env v, v ∈ a.enumValues → env T.name = a.enumOperand v → ∀ d,
        (∃ r ∈ valueRules attributes T s,
            r.trigger.Holds (CodeHolds env) (env r.prop) ∧ r.cssClass = d) ↔
          (∀ e ∈ c, e.truth env = true) ∧ d = T.value (env T.name) := by
  have hpu : ¬ propsHead <:+: u := fun hi => hp (hi.trans ht.infix_text)
  have hpT : ¬ propsHead <:+: T.text := fun hi => hpu (hi.trans hu.infix_text)
  have hcollects : Collects T s (extract attributes t) := ht.collects hu (Nat.lt_succ_self _)
  obtain ⟨before, after, hrules⟩ := hcollects.expanded
  exact ⟨before, after, hrules, fun env v hv henv d =>
    holds_valueRules hpT ha (hu.filed hpu) hk hv henv⟩

/-! ### A button in two sizes -/

def sizeClass : Template where
  name := "size"
  front := "btn--".toList
  back := []
  left := []
  right := []
  identifier := by decide
  no_word := by decide
  plain_front := ⟨by decide, by decide, by decide⟩
  plain_back := ⟨by decide, by decide, by decide⟩
  blank_left := blank_nil
  blank_right := blank_nil

def busyLarge : Expression := .join .conj (.path "busy") (.compare true "size" (.str "sm"))

def busyCondition : List Char := "busy && size !== 'sm'".toList

theorem reads_busyLarge : Reads 2 busyLarge busyCondition := by
  have hsmall : Operand (.str "sm") ('\x27' :: ("sm".toList ++ ['\x27'])) :=
    .str (quoted_of_plain (.inl rfl) (by decide) (by decide))
  have hbusy : Reads 2 (.path "busy") "busy".toList := .path (by omega) (.name (by decide)) (by decide)
  have hsize : Reads 3 (.compare true "size" (.str "sm")) _ :=
    .compare (by omega) (by decide) (by decide) hsmall blank_space blank_space
  exact .join (j := .conj) (by decide) hbusy hsize blank_space blank_space

def busyButton : List Char := "clsx('btn', busy && size !== 'sm' && \x60btn--$\x7bsize\x7d\x60)".toList

/-- The class for the size of a large button that is busy. -/
theorem busy_button_follows_size :
    ∃ before after, ((extract [buttonSize] busyButton).expandTemplates [buttonSize]).rules =
        before ++ (valueRules [buttonSize] sizeClass (some busyCondition) ++ after) ∧
      ∀ env v, v ∈ ["sm", "lg"] → env "size" = .str v → ∀ d,
        (∃ r ∈ valueRules [buttonSize] sizeClass (some busyCondition),
            r.trigger.Holds (CodeHolds env) (env r.prop) ∧ r.cssClass = d) ↔
          busyLarge.truth env = true ∧ d = "btn--" ++ v := by
  have hcondition : rejoined (busyCondition ++ [' ']) = busyCondition := by decide
  have huses := Uses.conjunction (T := sizeClass) rfl reads_busyLarge blank_space blank_space .bare
  have hitem : ∀ r ∈ ["'btn'".toList], IsItem r := by
    intro r hr
    rw [List.mem_singleton.1 hr]
    have hbody : LiteralBody '\x27' "btn".toList := literalBody_of_plain (by decide) (by decide)
    exact ⟨sealed_literal (by decide) hbody, by decide⟩
  have hinside : Inside (busyCondition ++ ([' '] ++ (Junction.conj.symbol ++
      ([' '] ++ sizeClass.text)))) busyButton :=
    @Inside.call _ "clsx" _ [' '] [] [] ["'btn'".toList] [] .here blank_space blank_nil
      (by simpa using hitem) (by decide) blank_nil
  have hfiled : some (rejoined (busyCondition ++ [' '])) = some busyCondition := congrArg some hcondition
  have hkeep : Keepable buttonSize "size" (some busyLarge) (some busyCondition) := by
    refine ⟨by decide, by simp [busyLarge], ?_, fun _ w hw => ⟨rfl, ?_⟩⟩
    · rintro _ ⟨⟩ l hl
      have hl' : l = .str "sm" := by simpa [busyLarge, Expression.conjuncts] using hl
      rw [hl']
      decide
    · have hplain : ∀ w ∈ buttonSize.enumValues, '\\' ∉ w.toList ∧ '\x27' ∉ w.toList := by decide
      exact hplain w hw
  have hknown : enumAttribute? [buttonSize] sizeClass.name = some buttonSize := rfl
  obtain ⟨before, after, hrules, hholds⟩ := expanded_rules_follow_literal (hfiled ▸ huses) hinside
    (not_infix_of_notMem (by decide)) hknown hkeep
  refine ⟨before, after, hrules, fun env v hv henv d => ?_⟩
  have hlist : env sizeClass.name = buttonSize.enumOperand v := henv
  have hvalue : sizeClass.value (env sizeClass.name) = "btn--" ++ v := by
    rw [hlist, ← String.toList_inj, Template.value, String.toList_ofList, String.toList_append]
    exact congrArg _ (List.append_nil _)
  rw [hholds env v hv hlist, hvalue]
  simp

def busyOrActive : Expression := .join .disj (.path "busy") (.path "active")

def eitherCondition : List Char := "(busy || active)".toList

def eitherButton : List Char := "clsx((busy || active) && \x60btn--$\x7bsize\x7d\x60)".toList

def smallBusy (name : String) : Json := if name = "size" then .str "sm" else .bool (name == "busy")

/-- Without its parentheses a disjunction does not guard the comparison: a small button that is busy
has the class of a large one. -/
theorem disjunction_drops_guard :
    ¬ ∀ (attributes : List Attribute) (T : Template) (a : Attribute) (c : Option Expression)
      (s : Option (List Char)) (u t : List Char), Uses T c s u → Inside u t → ¬ propsHead <:+: t →
      enumAttribute? attributes T.name = some a →
      ∀ env v, v ∈ a.enumValues → env T.name = a.enumOperand v → ∀ d,
        (∃ r ∈ valueRules attributes T s,
            r.trigger.Holds (CodeHolds env) (env r.prop) ∧ r.cssClass = d) ↔
          (∀ e ∈ c, e.truth env = true) ∧ d = T.value (env T.name) := by
  intro h
  have hbusy (k : Nat) (hk : k ≤ 5) : Reads k (.path "busy") "busy".toList :=
    .path hk (.name (by decide)) (by decide)
  have hactive (k : Nat) (hk : k ≤ 5) : Reads k (.path "active") "active".toList :=
    .path hk (.name (by decide)) (by decide)
  have hor : Reads 0 busyOrActive "busy || active".toList :=
    .join (j := .disj) (by omega) (hbusy 1 (by omega)) (hactive 2 (by omega)) blank_space blank_space
  have hread : Reads 2 busyOrActive eitherCondition := .paren (by omega) hor blank_nil blank_nil
  have huses := Uses.conjunction (T := sizeClass) rfl hread blank_space blank_space .bare
  have hinside : Inside (eitherCondition ++ ([' '] ++ (Junction.conj.symbol ++
      ([' '] ++ sizeClass.text)))) eitherButton :=
    @Inside.call _ "clsx" _ [] [] [] [] [] .here blank_nil blank_nil (by simp) (by decide) blank_nil
  have hrules : valueRules [buttonSize] sizeClass (some (rejoined (eitherCondition ++ [' ']))) =
      [⟨"size", .condition "busy || active && size === 'sm'", "btn--sm", "size === 'sm'", none⟩,
        ⟨"size", .condition "busy || active && size === 'lg'", "btn--lg", "size === 'lg'", none⟩] := rfl
  have hkeeps := (h [buttonSize] sizeClass buttonSize (some busyOrActive) _ _ eitherButton huses
    hinside (not_infix_of_notMem (by decide)) rfl smallBusy "sm" (by decide) rfl "btn--lg").1
  rw [hrules] at hkeeps
  have hlarge : Reads 3 (.compare false "size" (.str "lg")) "size === 'lg'".toList :=
    .compare (by omega) (by decide) (by decide)
      (.str (quoted_of_plain (q := '\x27') (v := "lg".toList) (.inl rfl) (by decide) (by decide)))
      blank_space blank_space
  have hboth : Reads 2 (.join .conj (.path "active") (.compare false "size" (.str "lg"))) _ :=
    .join (j := .conj) (by decide) (hactive 2 (by omega)) hlarge blank_space blank_space
  have hcode : Reads 1 (.join .disj (.path "busy")
      (.join .conj (.path "active") (.compare false "size" (.str "lg"))))
      "busy || active && size === 'lg'".toList :=
    .join (j := .disj) (by decide) (hbusy 1 (by omega)) hboth blank_space blank_space
  have htrue : CodeHolds smallBusy "busy || active && size === 'lg'" := hcode.codeTruth_eq smallBusy
  obtain ⟨-, hclass⟩ := hkeeps ⟨_, List.mem_cons_of_mem _ List.mem_cons_self, htrue, rfl⟩
  exact absurd hclass (by decide)

end JsxToJinja.ClassExpression
