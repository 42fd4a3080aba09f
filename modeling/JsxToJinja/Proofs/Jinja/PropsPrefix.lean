import JsxToJinja.Proofs.Classes.PropsPrefix
import JsxToJinja.Proofs.Jinja.Lists
import JsxToJinja.Proofs.Jinja.Tokens

/-! The two ways of dropping `props.`: once from the text of code, wherever the letters start a word,
and once from the front of a member path when the path is written. They agree where the text has
`props.` only in front of its paths, and nowhere else. -/
namespace JsxToJinja.Jinja
open JsxToJinja.Text JsxToJinja.Code

/-! ### Expressions as they are laid out -/

/-- An expression over member paths, quoted texts and whole numbers, with its blanks and
parentheses. -/
inductive LogicText where
  | path (p : MemberPath)
  | text (q : Char) (body : List Char) (quote : q = '\x27' ∨ q = '\x22') (closed : LiteralBody q body)
  | int (n : Int)
  | not (gap : Gap) (a : LogicText)
  | binary (o w : String) (operator : (o, .infixed w) ∈ operators) (left right : Gap) (a b : LogicText)
  | paren (left right : Gap) (a : LogicText)

def shownText (q : Char) (body : List Char) : List Char :=
  if q = '\x27' then '\x27' :: (body ++ ['\x27'])
  else quoteText (replaceAll ['\\', '\x22'] ['\x22'] body)

def variableText (names : NameMap) (w : List Char) : List Char :=
  if w = "undefined".toList ∨ w = "null".toList then "none".toList
  else if w = "children".toList then contentVariable.toList
  else (names.resolve (String.ofList w)).toList

/-- A path in a template: the names `props` at its front go. -/
def pathText (names : NameMap) (p : MemberPath) : List Char :=
  variableText names p.core.head ++
    (p.core.links.map fun l => MemberPath.writtenStep l.2).flatMap MemberPath.stepText

namespace LogicText

def code : LogicText → List Char
  | path p => p.text
  | text q body _ _ => q :: (body ++ [q])
  | int n => Number.spelled n
  | not gap a => '!' :: (gap.chars ++ a.code)
  | binary o _ _ left right a b => a.code ++ (left.chars ++ (o.toList ++ (right.chars ++ b.code)))
  | paren left right a => '(' :: (left.chars ++ (a.code ++ (right.chars ++ [')'])))

def written (names : NameMap) : Bool → LogicText → List Char
  | _, path p => pathText names p
  | _, text q body _ _ => shownText q body
  | _, int n => Number.spelled n
  | _, not _ a => "not ".toList ++ written names false a
  | _, binary _ w _ _ _ a b =>
    written names false a ++ (' ' :: (w.toList ++ ' ' :: written names false b))
  | true, paren _ _ a => written names true a
  | false, paren _ _ a => inParens (written names true a)

def bare : LogicText → LogicText
  | paren _ _ a => a.bare
  | e => e

/-- Only in front of a path a word begins with `props.`. -/
def Leads : LogicText → Prop
  | path p => stripProps p.core.text = p.core.text
  | text q body _ _ => stripProps (q :: (body ++ [q])) = q :: (body ++ [q])
  | int _ => True
  | not _ a => a.Leads
  | binary _ _ _ _ _ a b => a.Leads ∧ b.Leads
  | paren _ _ a => a.Leads

instance decidableLeads : (e : LogicText) → Decidable e.Leads
  | path p => inferInstanceAs (Decidable (stripProps p.core.text = p.core.text))
  | text q body _ _ => inferInstanceAs (Decidable (stripProps (q :: (body ++ [q])) = q :: (body ++ [q])))
  | int _ => .isTrue trivial
  | not _ a => decidableLeads a
  | binary _ _ _ _ _ a b =>
    have := decidableLeads a
    have := decidableLeads b
    inferInstanceAs (Decidable (a.Leads ∧ b.Leads))
  | paren _ _ a => decidableLeads a

/-- No quoted text has a backslash in front of `props.`. -/
def Unescaped : LogicText → Prop
  | text _ body _ _ => ¬ '\\' :: propsHead <:+: body
  | not _ a => a.Unescaped
  | binary _ _ _ _ _ a b => a.Unescaped ∧ b.Unescaped
  | paren _ _ a => a.Unescaped
  | _ => True

end LogicText

variable {names : NameMap} {write : Writer}

/-! ### Shape of the text -/

theorem isQuote_of_text {q : Char} (hq : q = '\x27' ∨ q = '\x22') : isQuote q = true := by
  rcases hq with rfl | rfl <;> decide

theorem infixed_ne_link {o w : String} (ho : (o, .infixed w) ∈ operators) : o ≠ "?." := by
  rintro rfl
  simp [operators] at ho

theorem spacer_infixed {o w : String} (ho : (o, .infixed w) ∈ operators) :
    Spacer o.toList ∧ o.toList ≠ [] := by
  have hall : ∀ p ∈ operators, p.1 = "?." ∨
      (∀ c ∈ p.1.toList, isWord c = false ∧ c ∉ propsHead) ∧ p.1.toList ≠ [] := by decide
  exact (hall _ ho).resolve_left (infixed_ne_link ho)

/-- Neither question mark of `??` starts a conditional. -/
theorem unasked_coalesce : Unasked "??".toList := by
  intro pre rest
  refine ⟨[⟨pre.length, '?', 0, '?' :: '?' :: rest⟩, ⟨pre.length + 1, '?', 0, '?' :: rest⟩], ?_, ?_⟩
  · have htext : "??".toList ++ rest = '?' :: '?' :: rest := rfl
    rw [htext, marksFrom_ordinary (by decide), marksFrom_ordinary (by decide)]
    rfl
  · intro m hm
    simp only [List.mem_cons, List.not_mem_nil, or_false] at hm
    rcases hm with rfl | rfl
    · exact ⟨by simp, by simp [questionAt, isTernaryQuestion]⟩
    · exact ⟨by simp, by simp [questionAt, isTernaryQuestion]⟩

theorem unasked_infixed {o w : String} (ho : (o, .infixed w) ∈ operators) : Unasked o.toList := by
  have hall : ∀ p ∈ operators, p.1 = "??" ∨ p.1 = "?." ∨
      ∀ c ∈ p.1.toList, c ∉ ['?'] ∧ isOrdinary c = true := by decide
  rcases hall _ ho with he | he | hplain
  · obtain rfl : o = "??" := he
    exact unasked_coalesce
  · exact absurd he (infixed_ne_link ho)
  · exact (sealed_of_ordinary hplain).unasked (by simp)

namespace LogicText

theorem edged (e : LogicText) : Edged e.code := by
  induction e with
  | path p => exact p.isPath.edged
  | text q body hq _ =>
    have hedge : isEdge q = true := by simp [isEdge, isQuote_of_text hq]
    exact edged_cons_concat hedge hedge _
  | int n => exact (Logic.Prints.int (k := 1) n).edged
  | not gap a ih =>
    obtain ⟨c, hc, hec⟩ := ih.last
    exact ⟨⟨'!', rfl, by decide⟩,
      ⟨c, by simp [code, List.getLast?_cons, List.getLast?_append, Option.mem_def.1 hc], hec⟩⟩
  | binary o w _ left right a b iha ihb => simpa [code] using iha.between ihb (_ ++ (_ ++ _))
  | paren left right a _ =>
    rw [code, paren_text]
    exact edged_cons_concat (by decide) (by decide) _

theorem nested (e : LogicText) : Sealed [] e.code := by
  have hpad (g : Gap) : Sealed [] g.chars := sealed_of_blank g.blank (by simp)
  induction e with
  | path p => exact p.isPath.sealed (by simp)
  | text q body hq hb => exact sealed_literal (isQuote_of_text hq) hb
  | int n => exact (Logic.Prints.int (k := 1) n).sealed.mono (by simp)
  | not gap a ih => exact .plain (by simp) (by decide) ((hpad gap).append ih)
  | binary o w ho left right a b iha ihb =>
    have hoperator : Sealed [] o.toList := sealed_of_ordinary fun c hc =>
      ⟨List.not_mem_nil, ordinary_of_mem_operator ho c hc⟩
    exact iha.append ((hpad left).append (hoperator.append ((hpad right).append ihb)))
  | paren left right a ih => exact ih.paren left.blank right.blank

/-- There is no conditional outside the parentheses of an expression. -/
theorem unasked (e : LogicText) : Unasked e.code := by
  have hpad (g : Gap) : Unasked g.chars := by
    have hsealed : Sealed ['?'] g.chars := sealed_of_blank g.blank (by decide)
    exact hsealed.unasked (by simp)
  induction e with
  | path p =>
    have hsealed : Sealed ['?'] p.text := p.isPath.sealed (by decide)
    exact hsealed.unasked (by simp)
  | text q body hq hb =>
    have hsealed : Sealed ['?'] (q :: (body ++ [q])) := sealed_literal (isQuote_of_text hq) hb
    exact hsealed.unasked (by simp)
  | int n => exact (Logic.Prints.int (k := 1) n).sealed.unasked (by simp)
  | not gap a ih =>
    have hbang : Sealed ['?'] ['!'] := .plain (by decide) (by decide) .nil
    exact (hbang.unasked (by simp)).append ((hpad gap).append ih)
  | binary o w ho left right a b iha ihb =>
    exact iha.append ((hpad left).append ((unasked_infixed ho).append ((hpad right).append ihb)))
  | paren left right a _ =>
    have hsealed : Sealed ['?'] ('(' :: (left.chars ++ (a.code ++ (right.chars ++ [')'])))) :=
      a.nested.paren left.blank right.blank
    exact hsealed.unasked (by simp)

theorem stripOuterParens_code (e : LogicText) : stripOuterParens e.code = e.bare.code := by
  have hself {e : LogicText} (he : isGroup '(' e.code = false) : stripOuterParens e.code = e.code :=
    stripOuterParens_of_not_group e.edged.trimmed he
  induction e with
  | path p => exact hself (isGroup_of_head (p.isPath.head?_ne (by decide)))
  | text q body hq hb =>
    refine hself (isGroup_of_head ?_)
    rcases hq with rfl | rfl <;> simp [code]
  | int n => exact hself (Logic.Prints.int (k := 1) n).not_group
  | not gap a _ => exact hself (isGroup_of_head (by simp [code]))
  | binary o w ho left right a b _ _ =>
    exact hself (a.nested.isGroup_append a.edged.ne_nil (by simp [(spacer_infixed ho).2]))
  | paren left right a ih =>
    rw [code, stripOuterParens_paren a.nested a.edged.trimmed left.blank right.blank, ih, bare]

theorem written_bare (names : NameMap) (e : LogicText) :
    e.bare.written names false = e.written names true := by
  induction e with
  | paren left right a ih => rw [bare, written, ih]
  | _ => rfl

theorem length_bare (e : LogicText) : e.bare.code.length ≤ e.code.length := by
  induction e with
  | paren left right a ih =>
    simp only [bare, code, List.length_cons, List.length_append]
    omega
  | _ => exact Nat.le_refl _

end LogicText

/-! ### Writing -/

/-- No name and no member goes on with the text. -/
structure EndsPath (rest : List Char) : Prop where
  name : ∀ c ∈ rest.head?, isIdentifierChar c = false
  dot : startsWith rest ['.'] = false
  link : startsWith rest ['?', '.'] = false

theorem endsPath_nil : EndsPath [] := ⟨by simp, rfl, rfl⟩

theorem endsPath_operator {o w : String} (ho : (o, .infixed w) ∈ operators) (g : Gap)
    (t : List Char) : EndsPath (g.chars ++ (o.toList ++ t)) := by
  obtain ⟨p, hp⟩ := g
  cases p with
  | cons c p =>
    have hc := hp c List.mem_cons_self
    have hdot : c ≠ '.' ∧ c ≠ '?' := by
      constructor <;> (rintro rfl; exact absurd hc (by decide))
    refine ⟨fun d hd => ?_, startsWith_of_head (by simpa using hdot.1) _,
      startsWith_of_head (by simpa using hdot.2) _⟩
    obtain rfl : c = d := by simpa using hd
    by_contra hname
    rw [not_blank_of_isIdentifierChar (by simpa using hname)] at hc
    cases hc
  | nil =>
    simp only [operators, List.mem_cons, Prod.mk.injEq, Operator.infixed.injEq, reduceCtorEq,
      and_false, false_or, List.not_mem_nil, or_false] at ho
    rcases ho with ⟨rfl, -⟩ | ⟨rfl, -⟩ | ⟨rfl, -⟩ | ⟨rfl, -⟩ | ⟨rfl, -⟩ | ⟨rfl, -⟩ | ⟨rfl, -⟩ |
      ⟨rfl, -⟩ | ⟨rfl, -⟩ | ⟨rfl, -⟩ | ⟨rfl, -⟩ <;>
      exact ⟨by simp; decide, rfl, rfl⟩

theorem Ready.head?_ne {out : List Char} (h : Ready out) : out.head? ≠ some '.' := by
  rcases h with rfl | h
  · simp
  · simp [h]

theorem literalText_shown {q : Char} (hq : q = '\x27' ∨ q = '\x22') (body : List Char) :
    literalText write (q :: (body ++ [q])) = shownText q body := by
  rcases hq with rfl | rfl
  · rw [literalText, groupInner_bracket]
    rfl
  · rw [literalText, groupInner_bracket]
    · rfl
    · simp
    · simp

theorem writeWord_variable {out w after : List Char} (ho : out.head? ≠ some '.')
    (h : w = "props".toList → startsWith after ['.'] = false ∧ startsWith after ['?', '.'] = false) :
    writeWord names out w after = ((variableText names w).reverse ++ out, 0) := by
  rw [writeWord, if_neg (by simpa using ho), variableText]
  by_cases habsent : w = "undefined".toList ∨ w = "null".toList
  · rw [if_pos (by simpa using habsent), if_pos habsent]
  · rw [if_neg (by simpa using habsent), if_neg (by grind), if_neg (by grind), if_neg habsent]
    by_cases hchildren : w = "children".toList
    · rw [if_pos (by simpa using hchildren), if_pos hchildren]
    · rw [if_neg (by simpa using hchildren), if_neg hchildren]

theorem writeFrom_behindProps (write : Writer) {out : List Char} (ho : out.head? ≠ some '.')
    (w : List Char) (ls : List (Bool × List Char)) (rest : List Char) :
    writeFrom names write 0 out (linkedText w ls ++ rest) =
      writeFrom names write 0 out (linkedText (behindProps w ls).1 (behindProps w ls).2 ++ rest) := by
  induction ls generalizing w with
  | nil => rfl
  | cons l ls ih =>
    rw [behindProps]
    split
    · rename_i hprops
      have htext : linkedText w (l :: ls) ++ rest =
          "props".toList ++ (MemberPath.linkText (l.1, []) ++ (linkedText l.2 ls ++ rest)) := by
        simp [linkedText, hprops, MemberPath.linkText]
      rw [htext, MemberPath.writeFrom_props write ho, ← ih]
      rfl
    · rfl

theorem writeFrom_path (write : Writer) (p : MemberPath) {out rest : List Char}
    (ho : out.head? ≠ some '.') (hr : EndsPath rest) :
    writeFrom names write 0 out (p.text ++ rest) =
      writeFrom names write 0 ((pathText names p).reverse ++ out) rest := by
  have hprops : p.core.head = "props".toList →
      startsWith (p.core.links.flatMap MemberPath.linkText ++ rest) ['.'] = false ∧
        startsWith (p.core.links.flatMap MemberPath.linkText ++ rest) ['?', '.'] = false := by
    intro he
    rw [show p.core.links = [] from behindProps_head p.head p.links he]
    exact ⟨hr.dot, hr.link⟩
  rw [MemberPath.text, ← linkedText, writeFrom_behindProps write ho, linkedText, List.append_assoc]
  change writeFrom names write 0 out
    (p.core.head ++ (p.core.links.flatMap MemberPath.linkText ++ rest)) = _
  rw [writeFrom_word write out p.core.head_name (MemberPath.links_head hr.name _),
    writeWord_variable ho hprops, MemberPath.writeFrom_links write p.core.links_names hr.name, pathText]
  simp

/-- Names are written without blanks at their ends. -/
def EdgedNames (names : NameMap) : Prop :=
  ∀ w, isIdentifier w = true → Edged (names.resolve (String.ofList w)).toList

theorem edged_pathText (hn : EdgedNames names) (p : MemberPath) : Edged (pathText names p) := by
  have hhead : Edged (variableText names p.core.head) := by
    rw [variableText]
    split
    · exact edged_of_isIdentifier (by decide)
    · split
      · exact ⟨⟨'_', rfl, by decide⟩, ⟨'t', rfl, by decide⟩⟩
      · exact hn _ p.core.head_name
  refine MemberPath.edged_append_steps hhead fun s hs => ?_
  obtain ⟨l, hl, rfl⟩ := List.mem_map.1 hs
  have hname := p.core.links_names l hl
  rw [MemberPath.writtenStep]
  split <;> exact hname

namespace LogicText

/-- What is written for a text of conditions has no blank at its ends. -/
theorem edged_written (hn : EdgedNames names) (e : LogicText) (alone : Bool) :
    Edged (e.written names alone) := by
  induction e generalizing alone with
  | path p => exact edged_pathText hn p
  | text q body _ _ =>
    rw [written, shownText]
    split <;> exact edged_cons_concat (by decide) (by decide) _
  | int n => exact (Logic.Prints.int (k := 1) n).edged
  | not gap a ih =>
    have hnot : Edged "not".toList := edged_of_isIdentifier (by decide)
    exact hnot.between (ih false) [' ']
  | binary o w _ left right a b iha ihb =>
    have := (iha false).between (ihb false) (' ' :: (w.toList ++ [' ']))
    simpa [written] using this
  | paren left right a ih =>
    cases alone with
    | true => exact ih true
    | false => exact edged_cons_concat (by decide) (by decide) _

theorem head?_code (e : LogicText) (g : Gap) (rest : List Char) :
    (g.chars ++ (e.code ++ rest)).head? ≠ some '=' := by
  have hhead := e.edged.head?_pad_ne g.blank (d := '=') (by decide) (by decide)
  have hne : g.chars ++ e.code ≠ [] := by simp [e.edged.ne_nil]
  obtain ⟨c, u, hu⟩ := List.exists_cons_of_ne_nil hne
  rw [hu] at hhead
  rw [← List.append_assoc, hu]
  exact hhead

/-- An expression is written the same in front of whatever ends it, if its groups are written right. -/
theorem writeFrom_code (hn : EdgedNames names) (e : LogicText) {n : Nat} (hlen : e.code.length ≤ n)
    (hw : ∀ {a : LogicText} {left right : Gap},
      (left.chars ++ (a.code ++ right.chars)).length < n →
        write (left.chars ++ (a.code ++ right.chars)) = a.written names true)
    {out rest : List Char} (ho : Ready out) (hr : EndsPath rest) :
    writeFrom names write 0 out (e.code ++ rest) =
      writeFrom names write 0 ((e.written names false).reverse ++ out) rest := by
  induction e generalizing out rest with
  | path p => exact writeFrom_path write p ho.head?_ne hr
  | text q body hq hb =>
    have htext : (text q body hq hb).code ++ rest = q :: (body ++ q :: rest) := by simp [code]
    rw [htext, writeFrom_literal write out (isQuote_of_text hq) hb, literalText_shown hq, written]
  | int m => exact Logic.writeFrom_int write m out rest
  | not gap a ih =>
    have hready : Ready ("not ".toList.reverse ++ out) := .inr rfl
    have hlena : a.code.length ≤ n := by
      simp only [code, List.length_cons, List.length_append] at hlen
      omega
    rw [code, List.cons_append, List.append_assoc,
      ho.writeFrom_bang write gap.blank (a.head?_code gap rest), ih hlena hready hr, written]
    simp
  | binary o w hop left right a b iha ihb =>
    have hlens : a.code.length ≤ n ∧ b.code.length ≤ n := by
      simp only [code, List.length_append] at hlen
      omega
    obtain ⟨d, hd, hedge⟩ := (a.edged_written hn false).last
    obtain ⟨u, hu⟩ : ∃ u, (a.written names false).reverse = d :: u := by
      rw [← List.head?_reverse] at hd
      exact List.head?_eq_some_iff.1 hd
    have hready : Ready (' ' :: (w.toList.reverse ++ ' ' :: d :: (u ++ out))) := .inr rfl
    have htext : (binary o w hop left right a b).code ++ rest =
        a.code ++ (left.chars ++ (o.toList ++ (right.chars ++ (b.code ++ rest)))) := by simp [code]
    rw [htext, iha hlens.1 ho (endsPath_operator hop left _), hu, List.cons_append,
      writeFrom_infixed write hop left.blank right.blank (not_blank_of_isEdge hedge)
        (b.head?_code right rest), ihb hlens.2 hready hr, written]
    simp [hu]
  | paren left right a _ =>
    have hpad (g : Gap) : Sealed [] g.chars := sealed_of_blank g.blank (by simp)
    have hinner : (left.chars ++ (a.code ++ right.chars)).length < n := by
      simp only [code, List.length_cons, List.length_append, List.length_nil] at hlen ⊢
      omega
    have hnested := (hpad left).append (a.nested.append (hpad right))
    have htext : (paren left right a).code ++ rest =
        '(' :: (left.chars ++ (a.code ++ right.chars) ++ ')' :: rest) := by simp [code]
    rw [htext, writeFrom_group write out hnested, hw hinner, written]

/-- Code is written as its expression, whatever blanks stand around it. -/
theorem translateText_code (hn : EdgedNames names) (e : LogicText) (left right : Gap) :
    translateText names (left.chars ++ (e.code ++ right.chars)) = e.written names true := by
  induction hlen : (left.chars ++ (e.code ++ right.chars)).length using Nat.strongRecOn
    generalizing e left right with
  | ind n ih =>
    have hbare : e.bare.code.length ≤ n := by
      have := e.length_bare
      simp only [List.length_append] at hlen
      omega
    have hgroups {a : LogicText} {l r : Gap} (hl : (l.chars ++ (a.code ++ r.chars)).length < n) :
        translateWithin names n (l.chars ++ (a.code ++ r.chars)) = a.written names true := by
      rw [translateWithin_eq names hl]
      exact ih _ hl a l r rfl
    have hwrite := e.bare.writeFrom_code hn hbare hgroups (.inl rfl) endsPath_nil
    rw [List.append_nil, List.append_nil] at hwrite
    have hstrip : stripOuterParens (left.chars ++ (e.code ++ right.chars)) = e.bare.code := by
      rw [stripOuterParens_pad left.blank e.edged.trimmed right.blank, e.stripOuterParens_code]
    rw [translateText, hlen, translateWithin, translateStep, hstrip,
      e.bare.unasked.splitTernary?_eq_none]
    dsimp only
    rw [hwrite, writeFrom, List.reverse_reverse, (e.bare.edged_written hn false).trimmed.trim_eq,
      written_bare]

end LogicText

/-! ### Dropping from literals -/

/-- A size of the inside of a literal that adds up over its characters. -/
structure Additive (q : Char) (size : List Char → Nat) : Prop where
  plain : ∀ c, ∃ k, 0 < k ∧ ∀ t, c ≠ '\\' → c ≠ q → LiteralBody q t → size (c :: t) = k + size t
  escape : ∀ c, ∃ k, ∀ t, LiteralBody q t → size ('\\' :: c :: t) = k + size t

theorem body_of_cons {q c : Char} {t : List Char} (h : LiteralBody q (c :: t)) (hc : c ≠ '\\') :
    c ≠ q ∧ LiteralBody q t := by
  cases h with
  | plain _ hq hbody => exact ⟨hq, hbody⟩
  | escape _ => exact absurd rfl hc

/-- Characters in front of a literal's inside that are no backslashes leave an inside. -/
theorem body_behind {q : Char} {size : List Char → Nat} (hs : Additive q size)
    {w t : List Char} (hw : '\\' ∉ w) (h : LiteralBody q (w ++ t)) :
    LiteralBody q t ∧ (w ≠ [] → size t < size (w ++ t)) := by
  induction w with
  | nil => exact ⟨h, fun hne => absurd rfl hne⟩
  | cons c w ih =>
    rw [List.mem_cons, not_or] at hw
    have hc : c ≠ '\\' := Ne.symm hw.1
    obtain ⟨hq, hbody⟩ := body_of_cons h hc
    obtain ⟨ht, hlt⟩ := ih hw.2 hbody
    obtain ⟨k, hk, hsize⟩ := hs.plain c
    refine ⟨ht, fun _ => ?_⟩
    rw [List.cons_append, hsize (w ++ t) hc hq hbody]
    by_cases hne : w = []
    · subst hne
      rw [List.nil_append]
      omega
    · have := hlt hne
      omega

/-- The inside of a literal stays as it is or gets smaller, and remains one. -/
theorem dropPropsFrom_body {q : Char} {size : List Char → Nat} (hs : Additive q size)
    {body : List Char} (hb : LiteralBody q body) (hno : ¬ '\\' :: propsHead <:+: body)
    (before : Option Char) :
    LiteralBody q (dropPropsFrom 0 before body) ∧
      (dropPropsFrom 0 before body = body ∨ size (dropPropsFrom 0 before body) < size body) := by
  induction hn : body.length using Nat.strongRecOn generalizing body before with
  | ind n ih =>
    subst hn
    by_cases hdrop : before.any isWord = false ∧ propsHead <+: body
    · obtain ⟨hbefore, rest, rfl⟩ := hdrop
      obtain ⟨hrest, hlt⟩ := body_behind hs (by decide) hb
      have hsmall := hlt (by decide)
      have hin : ¬ '\\' :: propsHead <:+: rest := fun h =>
        hno (h.trans (List.suffix_append _ _).isInfix)
      have hlen : rest.length < (propsHead ++ rest).length := by
        have hpos : 0 < propsHead.length := by decide
        rw [List.length_append]
        omega
      obtain ⟨hbody, hsize⟩ := ih rest.length hlen hrest hin none rfl
      rw [dropPropsFrom_head hbefore, stripProps]
      refine ⟨hbody, .inr ?_⟩
      rcases hsize with he | hsize
      · rwa [he]
      · omega
    · have hkept {c : Char} {t : List Char} {before : Option Char}
          (h : ¬ (before.any isWord = false ∧ propsHead <+: c :: t)) :
          dropPropsFrom 0 before (c :: t) = c :: dropPropsFrom 0 (some c) t := by
        rw [dropPropsFrom, if_neg]
        simpa [startsWith, List.isPrefixOf_iff_prefix] using h
      cases hb with
      | nil => exact ⟨.nil, .inl rfl⟩
      | @plain c t hc hq hbody =>
        obtain ⟨hbody', hsize⟩ := ih t.length (by simp) hbody
          (fun h => hno (h.trans (List.suffix_cons c t).isInfix)) (some c) rfl
        obtain ⟨k, -, hk⟩ := hs.plain c
        rw [hkept hdrop]
        refine ⟨.plain hc hq hbody', hsize.imp (fun he => by rw [he]) fun hlt => ?_⟩
        rw [hk _ hc hq hbody', hk _ hc hq hbody]
        omega
      | @escape c t hbody =>
        obtain ⟨hbody', hsize⟩ := ih t.length (by simp only [List.length_cons]; omega) hbody
          (fun h => hno (h.trans ⟨['\\', c], [], by simp⟩)) (some c) rfl
        obtain ⟨k, hk⟩ := hs.escape c
        have hnext : ¬ ((some '\\').any isWord = false ∧ propsHead <+: c :: t) := by
          rintro ⟨-, r, hr⟩
          exact hno ⟨[], r, by rw [← hr]; rfl⟩
        rw [hkept hdrop, hkept hnext]
        refine ⟨.escape hbody', hsize.imp (fun he => by rw [he]) fun hlt => ?_⟩
        rw [hk _ hbody', hk _ hbody]
        omega

theorem additive_length (q : Char) : Additive q List.length where
  plain _ := ⟨1, Nat.one_pos, fun t _ _ _ => by rw [List.length_cons, Nat.add_comm]⟩
  escape _ := ⟨2, fun t _ => by rw [List.length_cons, List.length_cons]; omega⟩

theorem length_quoteText_cons (c : Char) :
    ∃ k, 0 < k ∧ ∀ t, (quoteText (c :: t)).length = k + (quoteText t).length := by
  refine ⟨(if c == '\\' || c == '\x27' then ['\\', c] else [c]).length, ?_, fun t => ?_⟩
  · split <;> simp
  · simp only [quoteText, escapeQuoted, List.flatMap_cons, List.cons_append, List.length_cons,
      List.length_append]
    omega

/-- An escaped quote counts once, any other escape as its two characters. -/
theorem additive_quoteText : Additive '\x22' fun t =>
    (quoteText (replaceAll ['\\', '\x22'] ['\x22'] t)).length where
  plain c := by
    obtain ⟨k, hk, hlen⟩ := length_quoteText_cons c
    refine ⟨k, hk, fun t hc _ _ => ?_⟩
    have hmiss : startsWith (c :: t) ['\\', '\x22'] = false :=
      startsWith_of_head (by simpa using hc) _
    rw [replaceAll_miss hmiss, hlen]
  escape c := by
    by_cases hc : c = '\x22'
    · obtain ⟨k, -, hlen⟩ := length_quoteText_cons '\x22'
      refine ⟨k, fun t _ => ?_⟩
      have hhit := replaceAll_hit '\\' ['\x22'] ['\x22'] t
      rw [List.cons_append, List.nil_append] at hhit
      rw [hc, hhit, List.cons_append, List.nil_append, hlen]
    · obtain ⟨k, -, hlen⟩ := length_quoteText_cons '\\'
      obtain ⟨l, -, hlen'⟩ := length_quoteText_cons c
      refine ⟨k + l, fun t ht => ?_⟩
      have hfirst : startsWith ('\\' :: c :: t) ['\\', '\x22'] = false := by
        simp [startsWith, List.isPrefixOf, Ne.symm hc]
      have hsecond : startsWith (c :: t) ['\\', '\x22'] = false := by
        have hhead : t.head? ≠ some '\x22' := by
          cases ht with
          | nil => simp
          | plain _ hq _ => simpa using hq
          | escape _ => simp
        cases t with
        | nil => simp [startsWith, List.isPrefixOf]
        | cons d t =>
          have hd : d ≠ '\x22' := by simpa using hhead
          simp [startsWith, List.isPrefixOf, Ne.symm hd]
      rw [replaceAll_miss hfirst, replaceAll_miss hsecond, hlen, hlen', Nat.add_assoc]

/-- A literal stays as it is, or remains one and is written with fewer characters. -/
theorem exists_literal_stripped {q : Char} {body : List Char} (hq : q = '\x27' ∨ q = '\x22')
    (hb : LiteralBody q body) (hno : ¬ '\\' :: propsHead <:+: body) :
    ∃ body', LiteralBody q body' ∧ q :: (body' ++ [q]) = stripProps (q :: (body ++ [q])) ∧
      (body' = body ∨ (shownText q body').length < (shownText q body).length) := by
  have hhead : q ∉ propsHead := by rcases hq with rfl | rfl <;> decide
  have hp : q ≠ 'p' := by
    rintro rfl
    exact hhead (by decide)
  refine ⟨dropPropsFrom 0 (some q) body, ?_⟩
  have htext : stripProps (q :: (body ++ [q])) = q :: (dropPropsFrom 0 (some q) body ++ [q]) := by
    rw [stripProps_cons hp, dropPropsFrom_append (by simpa using hhead) (Nat.zero_le _),
      dropPropsFrom_cons hp, dropPropsFrom]
  rw [htext]
  rcases hq with rfl | rfl
  · obtain ⟨hbody, hsize⟩ := dropPropsFrom_body (additive_length _) hb hno (some '\x27')
    exact ⟨hbody, rfl, hsize.imp_right fun hlt => by simpa [shownText] using hlt⟩
  · obtain ⟨hbody, hsize⟩ := dropPropsFrom_body additive_quoteText hb hno (some '\x22')
    exact ⟨hbody, rfl, hsize.imp_right fun hlt => by simpa [shownText] using hlt⟩

/-! ### Dropping from paths -/

theorem edgedNames_ofNames (declared : List String) : EdgedNames (.ofNames declared) :=
  (trims_translateWithin declared 0).names

/-- A name with a dollar sign is written as it is: no reserved or absent one has it. -/
theorem variableText_of_dollar (declared : List String) {w : List Char} (h : '$' ∈ w) :
    variableText (.ofNames declared) w = w := by
  have hreserved : ∀ n ∈ "undefined" :: "null" :: "children" :: reservedNames, '$' ∉ n.toList := by decide
  have hne {n : String} (hn : n ∈ "undefined" :: "null" :: "children" :: reservedNames) :
      w ≠ n.toList := by
    rintro rfl
    exact hreserved n hn h
  have hkept : isReserved (String.ofList w) = false := by
    rw [isReserved, Bool.eq_false_iff, Ne, List.contains_iff_mem]
    intro hm
    exact hne (by simp [hm]) (String.toList_ofList).symm
  rw [variableText, if_neg (not_or.2 ⟨hne (by simp), hne (by simp)⟩), if_neg (hne (by simp)),
    NameMap.resolve_ofNames, if_neg (by simp [hkept]), String.toList_ofList]

theorem length_steps (w : List Char) (ls : List (Bool × List Char)) :
    ((ls.map fun l => MemberPath.writtenStep l.2).flatMap MemberPath.stepText).length + w.length =
      namesLength w ls := by
  induction ls generalizing w with
  | nil => exact Nat.zero_add _
  | cons l ls ih =>
    have hstep : (MemberPath.stepText (MemberPath.writtenStep l.2)).length = l.2.length + 1 := by
      rw [MemberPath.writtenStep]
      split <;> rfl
    rw [List.map_cons, List.flatMap_cons, List.length_append, hstep, namesLength, ← ih l.2]
    omega

theorem length_pathText (names : NameMap) (p : MemberPath) :
    (pathText names p).length + p.core.head.length =
      (variableText names p.core.head).length + namesLength p.core.head p.core.links := by
  rw [pathText, List.length_append, Nat.add_assoc, length_steps]

namespace LogicText

/-- Dropping `props.` from the text of an expression leaves one, which is written the same if the word
was in front of paths only, and with fewer characters if not. -/
theorem exists_stripped (declared : List String) (e : LogicText) (h : e.Leads ∨ e.Unescaped) :
    ∃ e' : LogicText, e'.code = stripProps e.code ∧
      ((e.Leads ∧ ∀ alone, e'.written (.ofNames declared) alone = e.written (.ofNames declared) alone) ∨
        (¬ e.Leads ∧ ∀ alone, (e'.written (.ofNames declared) alone).length <
          (e.written (.ofNames declared) alone).length)) := by
  have hpad (g : Gap) : Spacer g.chars := spacer_of_blank g.blank
  induction e with
  | path p =>
    obtain ⟨p', htext, ⟨hsame, hcore⟩ | ⟨hother, hshort, hheads⟩⟩ := p.exists_stripped
    · refine ⟨.path p', htext, .inl ⟨hsame, fun alone => ?_⟩⟩
      rw [written, written, pathText, pathText, hcore]
    · refine ⟨.path p', htext, .inr ⟨hother, fun alone => ?_⟩⟩
      have hlen := length_pathText (.ofNames declared) p
      have hlen' := length_pathText (.ofNames declared) p'
      rw [written, written]
      rcases hheads with he | ⟨hd, hd'⟩
      · rw [he] at hlen' hshort
        omega
      · rw [variableText_of_dollar declared hd] at hlen
        rw [variableText_of_dollar declared hd'] at hlen'
        omega
  | text q body hq hb =>
    by_cases hl : (text q body hq hb).Leads
    · exact ⟨text q body hq hb, Eq.symm hl, .inl ⟨hl, fun _ => rfl⟩⟩
    · obtain ⟨body', hb', htext, he | hlt⟩ := exists_literal_stripped hq hb (h.resolve_left hl)
      · refine absurd ?_ hl
        rw [Leads, ← htext, he]
      · exact ⟨text q body' hq hb', htext, .inr ⟨hl, fun _ => hlt⟩⟩
  | int n =>
    refine ⟨.int n, Eq.symm <| stripProps_of_not_infix <| not_infix_of_notMem fun hm => ?_,
      .inl ⟨trivial, fun _ => rfl⟩⟩
    rcases Logic.nameChar_of_mem_spelled hm with hc | hc
    · exact absurd hc (by decide)
    · cases hc
  | not gap a ih =>
    obtain ⟨a', htext, hwritten⟩ := ih h
    refine ⟨.not gap a', ?_, hwritten.imp (And.imp_right ?_) (And.imp_right ?_)⟩
    · rw [code, code, htext, stripProps_cons (by decide),
        (hpad gap).dropPropsFrom_eq _ fun _ => by decide]
    · exact fun hsame _ => by rw [written, written, hsame]
    · intro hlt _
      have := hlt false
      simp only [written, List.length_append]
      omega
  | binary o w ho left right a b iha ihb =>
    obtain ⟨a', htexta, ha⟩ := iha (h.imp And.left And.left)
    obtain ⟨b', htextb, hb⟩ := ihb (h.imp And.right And.right)
    refine ⟨.binary o w ho left right a' b', ?_, ?_⟩
    · obtain ⟨hspacer, hne⟩ := spacer_infixed ho
      have hmid := ((hpad left).append hspacer).append (hpad right)
      have hmidne : left.chars ++ o.toList ++ right.chars ≠ [] := by simp [hne]
      have htext : left.chars ++ (o.toList ++ (right.chars ++ b.code)) =
          left.chars ++ o.toList ++ right.chars ++ b.code := by simp
      rw [code, code, htexta, htextb, htext, stripProps_append (hmid.head hmidne _),
        hmid.dropPropsFrom_eq _ fun he => absurd he hmidne]
      simp
    · simp only [Leads, written, List.length_append, List.length_cons]
      rcases ha with ⟨hla, ha⟩ | ⟨hla, ha⟩ <;> rcases hb with ⟨hlb, hb⟩ | ⟨hlb, hb⟩ <;>
        have hfa := ha false <;> have hfb := hb false
      · exact .inl ⟨⟨hla, hlb⟩, fun _ => by rw [hfa, hfb]⟩
      · exact .inr ⟨fun hl => hlb hl.2, fun _ => by rw [hfa]; omega⟩
      · exact .inr ⟨fun hl => hla hl.1, fun _ => by rw [hfb]; omega⟩
      · exact .inr ⟨fun hl => hla hl.1, fun _ => by omega⟩
  | paren left right a ih =>
    obtain ⟨a', htext, hwritten⟩ := ih h
    refine ⟨.paren left right a', ?_, hwritten.imp (And.imp_right ?_) (And.imp_right ?_)⟩
    · have hclose : Spacer (right.chars ++ [')']) := (hpad right).append (by simp [Spacer]; decide)
      have hhead : ∀ c ∈ (right.chars ++ [')']).head?, c ∉ propsHead := by
        simpa using hclose.head (by simp) []
      rw [code, code, htext, stripProps_cons (by decide),
        (hpad left).dropPropsFrom_eq _ fun _ => by decide, stripProps_append hhead,
        hclose.dropPropsFrom_self (by simp)]
    · intro hsame alone
      cases alone <;> rw [written, written, hsame]
    · intro hlt alone
      have := hlt true
      cases alone
      · simpa [written, inParens] using this
      · exact this

/-- Dropping `props.` from the text does not change the translation if the word is in front of paths only,
and changes it if it also stands elsewhere. -/
theorem stripped_text_translates_alike (declared : List String) (e : LogicText) :
    (e.Leads → translateText (.ofNames declared) (stripProps e.code) =
      translateText (.ofNames declared) e.code) ∧
    (e.Unescaped → translateText (.ofNames declared) (stripProps e.code) =
      translateText (.ofNames declared) e.code → e.Leads) := by
  have htranslated (e : LogicText) :
      translateText (.ofNames declared) e.code = e.written (.ofNames declared) true := by
    simpa [Gap.none] using e.translateText_code (edgedNames_ofNames declared) .none .none
  refine ⟨fun hl => ?_, fun hu heq => ?_⟩
  · obtain ⟨e', htext, ⟨-, hsame⟩ | ⟨hno, -⟩⟩ := e.exists_stripped declared (.inl hl)
    · rw [← htext, htranslated, htranslated, hsame]
    · exact absurd hl hno
  · obtain ⟨e', htext, ⟨hl, -⟩ | ⟨-, hlt⟩⟩ := e.exists_stripped declared (.inr hu)
    · exact hl
    · rw [← htext, htranslated, htranslated] at heq
      have := hlt true
      rw [heq] at this
      exact absurd this (Nat.lt_irrefl _)

/-- Dropped from the text, a member `props` is gone. -/
theorem nested_props_translated_apart :
    translateText (.ofNames []) (stripProps "child.props.label".toList) = "child.label".toList ∧
      translateText (.ofNames []) "child.props.label".toList = "child.props.label".toList := by
  decide +kernel

/-- Two names of properties translate alike; a member called `props` does not. -/
theorem size_and_busy_translates_alike :
    ((∃ e : LogicText, e.code = "props.size === \x27sm\x27 && !props.busy".toList ∧ e.Leads) ∧
      translateText (.ofNames ["size"]) (stripProps "props.size === \x27sm\x27 && !props.busy".toList) =
        translateText (.ofNames ["size"]) "props.size === \x27sm\x27 && !props.busy".toList) ∧
    ((∃ e : LogicText, e.code = "child.props.label".toList ∧ e.Unescaped ∧ ¬ e.Leads) ∧
      translateText (.ofNames ["size"]) (stripProps "child.props.label".toList) ≠
        translateText (.ofNames ["size"]) "child.props.label".toList) := by
  have hlead : ∃ e : LogicText, e.code = "props.size === \x27sm\x27 && !props.busy".toList ∧ e.Leads :=
    ⟨.binary "&&" "and" (by simp [operators]) .space .space
      (.binary "===" "==" (by simp [operators]) .space .space
        (.path ⟨"props".toList, [(false, "size".toList)], by decide, by decide⟩)
        (.text '\x27' "sm".toList (.inl rfl) (literalBody_of_plain (by decide) (by decide))))
      (.not .none (.path ⟨"props".toList, [(false, "busy".toList)], by decide, by decide⟩)),
      by decide, by decide⟩
  have hnested : ∃ e : LogicText, e.code = "child.props.label".toList ∧ e.Unescaped ∧ ¬ e.Leads :=
    ⟨.path ⟨"child".toList, [(false, "props".toList), (false, "label".toList)], by decide, by decide⟩,
      by decide, trivial, by decide⟩
  refine ⟨⟨hlead, ?_⟩, ⟨hnested, ?_⟩⟩
  · obtain ⟨e, hcode, hl⟩ := hlead
    rw [← hcode]
    exact (stripped_text_translates_alike ["size"] e).1 hl
  · obtain ⟨e, hcode, hu, hno⟩ := hnested
    rw [← hcode]
    exact fun heq => hno ((stripped_text_translates_alike ["size"] e).2 hu heq)

end LogicText

end JsxToJinja.Jinja
