import JsxToJinja.Proofs.Code.Comparisons
import JsxToJinja.Proofs.Jinja.Paths

/-! Logical expressions as template expressions. Operators are replaced one by one and parentheses
stay where they are, so the grouping is kept where both precedences agree: everywhere but for a
negation or a comparison without parentheses under a comparison. -/
namespace JsxToJinja.Code
open JsxToJinja.Text JsxToJinja.Jinja

namespace Logic

def formula : Logic → Formula
  | path p => p.formula
  | text body _ => .text body
  | int n => .int n
  | not a => .not a.formula
  | binary op a b => .binary op a.formula b.formula

/-- Where operators of a level may stand, the expression is in parentheses or has no operator. -/
def Closed (k : Nat) (e : Logic) : Prop := e.level < k ∨ e.level = 6

instance (k : Nat) (e : Logic) : Decidable (e.Closed k) :=
  inferInstanceAs (Decidable (e.level < k ∨ e.level = 6))

/-- No comparison has a negation or a comparison without parentheses as an operand, and paths are
plain. -/
def Grouped : Logic → Prop
  | path p => p.Plain
  | text _ _ | int _ => True
  | not a => a.Grouped
  | binary op a b => a.Grouped ∧ b.Grouped ∧
      (op.isComparison = true → a.Closed op.level ∧ b.Closed (op.level + 1))

instance decidableGrouped : (e : Logic) → Decidable e.Grouped
  | path p => inferInstanceAs (Decidable p.Plain)
  | text _ _ | int _ => inferInstanceAs (Decidable True)
  | not a => decidableGrouped a
  | binary op a b =>
    have := decidableGrouped a
    have := decidableGrouped b
    inferInstanceAs (Decidable (a.Grouped ∧ b.Grouped ∧
      (op.isComparison = true → a.Closed op.level ∧ b.Closed (op.level + 1))))

end Logic

/-! ### The text of a template expression -/

namespace Logic

def wrapped (k : Nat) (e : Logic) (t : List Char) : List Char :=
  if e.level < k then inParens t else t

def jinja : Logic → List Char
  | path p => p.jinja
  | text body _ => '\x27' :: (body ++ ['\x27'])
  | int n => Number.spelled n
  | not a => "not ".toList ++ wrapped 5 a a.jinja
  | binary op a b => wrapped op.level a a.jinja ++
      ' ' :: ((wordOf op).toList ++ ' ' :: wrapped (op.level + 1) b b.jinja)

theorem wrapped_of_le {k : Nat} {e : Logic} (h : k ≤ e.level) (t : List Char) : wrapped k e t = t :=
  if_neg (Nat.not_lt.2 h)

theorem edged_wrapped {t : List Char} (h : Edged t) (k : Nat) (e : Logic) :
    Edged (wrapped k e t) := by
  rw [wrapped]
  split
  · exact edged_cons_concat (by decide) (by decide) t
  · exact h

theorem Grouped.edged {e : Logic} (h : e.Grouped) : Edged e.jinja := by
  induction e with
  | path p => exact MemberPath.Plain.edged h
  | text body _ => exact edged_cons_concat (by decide) (by decide) body
  | int n => exact (Prints.int (k := 1) n).edged
  | not a ih =>
    obtain ⟨c, hc, hec⟩ := (edged_wrapped (ih h) 5 a).last
    exact ⟨⟨'n', rfl, by decide⟩,
      ⟨c, by simp [jinja, List.getLast?_cons, Option.mem_def.1 hc], hec⟩⟩
  | binary op a b iha ihb =>
    obtain ⟨ha, hb, -⟩ := h
    have hbetween := (edged_wrapped (iha ha) op.level a).between
      (edged_wrapped (ihb hb) (op.level + 1) b) (' ' :: ((wordOf op).toList ++ [' ']))
    simpa [jinja] using hbetween

/-- What may stand behind an expression. -/
theorem behind_operator {p : List Char} (hp : Blank p) (op : BinaryOp) (t : List Char) :
    MemberPath.Behind (p ++ (op.code ++ t)) := by
  intro c hc
  cases p with
  | nil =>
    cases op <;> (obtain rfl := (Option.some.inj hc).symm; decide)
  | cons d p =>
    obtain rfl := (Option.some.inj hc).symm
    have hd := hp _ List.mem_cons_self
    refine ⟨?_, ?_, ?_⟩
    · rw [← Bool.not_eq_true]
      intro hi
      rw [not_blank_of_isIdentifierChar hi] at hd
      cases hd
    · rintro rfl
      cases hd
    · rintro rfl
      cases hd

theorem Prints.head?_ne {k : Nat} {e : Logic} {t p : List Char} (h : Prints k e t) (hp : Blank p)
    (rest : List Char) : (p ++ (t ++ rest)).head? ≠ some '=' := by
  have hne : p ++ t ≠ [] := by simp [h.edged.ne_nil]
  have hhead := h.edged.head?_pad_ne (d := '=') hp (by decide) (by decide)
  rw [← List.append_assoc, List.head?_append, List.head?_eq_some_head hne, Option.some_or]
  rwa [List.head?_eq_some_head hne] at hhead

/-- Whole numbers are copied. -/
theorem writeFrom_int {names : NameMap} (write : Writer) (n : Int) (out rest : List Char) :
    writeFrom names write 0 out (Number.spelled n ++ rest) =
      writeFrom names write 0 ((Number.spelled n).reverse ++ out) rest := by
  have hcopy {ds : List Char} (hd : ∀ c ∈ ds, c.isDigit = true ∨ c = '-') (out : List Char) :
      writeFrom names write 0 out (ds ++ rest) =
        writeFrom names write 0 (ds.reverse ++ out) rest := by
    induction ds generalizing out with
    | nil => rfl
    | cons c ds ih =>
      have hc : isOrdinary c = true ∧ isBlank c = false ∧ c ∉ operatorHeads ∧
          isIdentifierStart c = false := by
        rcases hd c (by simp) with hdigit | rfl
        · have hchar : isIdentifierChar c = true := by
            simp [isIdentifierChar, Char.isAlphanum, hdigit]
          refine ⟨isOrdinary_of_isIdentifierChar hchar, not_blank_of_isIdentifierChar hchar, ?_, ?_⟩
          · intro hm
            have hall : ∀ d ∈ operatorHeads, isIdentifierChar d = false := by decide
            simp [hall c hm] at hchar
          · exact (integer_head (.inl hdigit)).1
        · decide
      obtain ⟨ho, hb, hh, hs⟩ := hc
      rw [List.cons_append, writeFrom_char write out ho hb hh hs,
        ih fun d hd' => hd d (by simp [hd'])]
      simp
  exact hcopy (fun c hc => Number.mem_spelled hc) out

/-- Every text of an expression is written the same way, whatever its blanks. -/
theorem Prints.writeFrom_eq {k n : Nat} {e : Logic} {t : List Char} (h : Prints k e t) (hk : k ≤ 6)
    (hg : e.Grouped) {write : Writer}
    (hw : ∀ {e : Logic} {s p q : List Char}, Prints 1 e s → e.Grouped → Blank p → Blank q →
      (p ++ (s ++ q)).length < n → write (p ++ (s ++ q)) = e.jinja)
    (hn : t.length ≤ n) {out rest : List Char} (ho : Ready out) (hr : MemberPath.Behind rest) :
    writeFrom {} write 0 out (t ++ rest) =
      writeFrom {} write 0 ((wrapped k e e.jinja).reverse ++ out) rest := by
  induction h generalizing out rest with
  | path p =>
    rw [wrapped_of_le hk]
    have hdot : out.head? ≠ some '.' := by
      rcases ho with rfl | ho
      · simp
      · simp [ho]
    exact MemberPath.Plain.writeFrom_eq hg write hr hdot
  | @text k body hb =>
    have htext : '\x27' :: (body ++ ['\x27']) ++ rest = '\x27' :: (body ++ '\x27' :: rest) := by
      simp
    rw [wrapped_of_le hk, htext, writeFrom_text write out hb]
    rfl
  | int m =>
    rw [wrapped_of_le hk]
    exact writeFrom_int write m out rest
  | @not k a t p hle ha hp ih =>
    have hready : Ready ("not ".toList.reverse ++ out) := .inr rfl
    have hlen : t.length ≤ n := by
      simp only [List.length_cons, List.length_append] at hn
      omega
    rw [wrapped_of_le hle, List.cons_append, List.append_assoc,
      ho.writeFrom_bang write hp (ha.head?_ne hp rest), ih (by omega) hg hlen hready hr, jinja]
    simp
  | @binary k op a b s t p q hle ha hb hp hq iha ihb =>
    obtain ⟨hga, hgb, -⟩ := hg
    have hlevel : op.level ≤ 4 := by cases op <;> decide
    have hlens : s.length ≤ n ∧ t.length ≤ n := by
      have : s.length + t.length ≤ (s ++ (p ++ (op.code ++ (q ++ t)))).length := by
        simp only [List.length_append]
        omega
      omega
    obtain ⟨d, hd, hedge⟩ := (edged_wrapped hga.edged op.level a).last
    obtain ⟨w, hwrapped⟩ := List.getLast?_eq_some_iff.1 (Option.mem_def.1 hd)
    have hfirst := iha (by omega) hga hlens.1 ho (behind_operator hp op (q ++ (t ++ rest)))
    have hreverse : (wrapped op.level a a.jinja).reverse ++ out = d :: (w.reverse ++ out) := by
      simp [hwrapped]
    have hready : Ready (' ' :: ((wordOf op).toList.reverse ++ ' ' :: d :: (w.reverse ++ out))) :=
      .inr rfl
    have htext : s ++ (p ++ (op.code ++ (q ++ t))) ++ rest =
        s ++ (p ++ (op.code ++ (q ++ (t ++ rest)))) := by simp
    rw [htext, hfirst, hreverse, writeFrom_operator write op hp hq (not_blank_of_isEdge hedge)
      (hb.head?_ne hq rest), ihb (by omega) hgb hlens.2 hready hr]
    simp [wrapped_of_le (e := .binary op a b) hle, jinja, hwrapped]
  | @paren k e t p q hl ht hp hq _ =>
    have hpad {p : List Char} (hp : Blank p) : Sealed [] p := sealed_of_blank hp (by simp)
    have hin : Sealed [] (p ++ (t ++ q)) :=
      (hpad hp).append ((ht.sealed.mono (by simp)).append (hpad hq))
    have hinner : write (p ++ (t ++ q)) = e.jinja := by
      refine hw ht hg hp hq ?_
      simp only [List.length_cons, List.length_append] at hn ⊢
      omega
    have htext : '(' :: (p ++ (t ++ (q ++ [')']))) ++ rest =
        '(' :: ((p ++ (t ++ q)) ++ ')' :: rest) := by simp
    rw [htext, writeFrom_group write out hin, hinner, wrapped, if_pos hl]

/-- Code is written as the text of the formula, with the parentheses it has. -/
theorem Prints.translateWithin_eq {e : Logic} {t p q : List Char} (h : Prints 1 e t)
    (hg : e.Grouped) (hp : Blank p) (hq : Blank q) {n : Nat} (hn : (p ++ (t ++ q)).length < n) :
    translateWithin {} n (p ++ (t ++ q)) = e.jinja := by
  induction n generalizing e t p q with
  | zero => omega
  | succ n ih =>
    have hstrip : stripOuterParens (p ++ (t ++ q)) = t := by
      rw [stripOuterParens_pad hp h.edged.trimmed hq,
        stripOuterParens_of_not_group h.edged.trimmed h.not_group]
    have hlen : t.length ≤ n := by
      simp only [List.length_append] at hn
      omega
    have hbehind : MemberPath.Behind [] := fun c hc => by cases hc
    have hwrite : writeFrom {} (translateWithin {} n) 0 [] t = e.jinja.reverse := by
      have := h.writeFrom_eq (by omega) hg (fun he hge hp hq hl => ih he hge hp hq hl) hlen
        (.inl rfl) hbehind
      rw [wrapped_of_le (one_le_level e)] at this
      simpa [writeFrom] using this
    rw [translateWithin, translateStep, hstrip, h.sealed.splitTernary?_eq_none (by simp)]
    dsimp only
    rw [hwrite, List.reverse_reverse, hg.edged.trimmed.trim_eq]

theorem Prints.translateText_eq {e : Logic} {t : List Char} (h : Prints 1 e t) (hg : e.Grouped) :
    translateText {} t = e.jinja := by
  have := h.translateWithin_eq hg blank_nil blank_nil (n := t.length + 1) (by simp)
  simpa [translateText] using this

/-! ### Lexemes -/

def opLexeme : BinaryOp → Lexeme
  | .or => .name "or".toList
  | .and => .name "and".toList
  | op => .comparison op

def intLexemes (n : Int) : List Lexeme :=
  if 0 ≤ n then [.digits n.toNat] else [.minus, .digits (-n).toNat]

def wrappedLexemes (k : Nat) (e : Logic) (ts : List Lexeme) : List Lexeme :=
  if e.level < k then .opening :: (ts ++ [.closing]) else ts

def lexemes : Logic → List Lexeme
  | path p => .name (MemberPath.variableOf p.own.1).1 :: p.steps.flatMap Step.lexemes
  | text body _ => [.quoted body]
  | int n => intLexemes n
  | not a => .name "not".toList :: wrappedLexemes 5 a a.lexemes
  | binary op a b => wrappedLexemes op.level a a.lexemes ++
      opLexeme op :: wrappedLexemes (op.level + 1) b b.lexemes

/-- Templates have no name that the text could go on with. -/
def Apart (rest : List Char) : Prop := ∀ c ∈ rest.head?, isTemplateChar c = false

section
variable {rest : List Char}

theorem lexes_templateName {w : List Char} (h : MemberPath.IsTemplateName w) (hr : Apart rest) :
    Lexes w [.name w] rest := by
  have hchars : ∀ c ∈ w, isTemplateChar c = true := by
    intro c hc
    have hname := isIdentifierChar_of_mem h.identifier hc
    simp only [isIdentifierChar, Bool.or_eq_true, beq_iff_eq] at hname
    rcases hname with hname | rfl
    · simpa [isTemplateChar] using hname
    · exact absurd hc h.dollar
  have hhead : ∀ c ∈ w.head?, c.isDigit = false := by
    intro c hc
    obtain ⟨t, rfl⟩ := List.head?_eq_some_iff.1 hc
    have hstart := h.identifier
    simp only [isIdentifier, Bool.and_eq_true] at hstart
    rw [← Bool.not_eq_true]
    intro hd
    rw [(integer_head (.inl hd)).1] at hstart
    cases hstart.1
  exact lexes_name (ne_nil_of_isIdentifier h.identifier) hchars hhead hr

theorem lexes_steps {steps : List Step} (hs : ∀ s ∈ steps, MemberPath.IsTemplateName s.name)
    (hr : Apart rest) :
    Lexes (steps.flatMap MemberPath.stepText) (steps.flatMap Step.lexemes) rest ∧
      Apart (steps.flatMap MemberPath.stepText ++ rest) := by
  induction steps with
  | nil => exact ⟨by simp [Lexes], hr⟩
  | cons s steps ih =>
    obtain ⟨hlex, hapart⟩ := ih fun s' hs' => hs s' (by simp [hs'])
    have hname := lexes_templateName (hs s (by simp)) hapart
    cases s with
    | member w =>
      have hdot {t : List Char} : Lexes ['.'] [.dot] t := lexes_sign (by decide) rfl
      exact ⟨(hdot.append hname).append hlex, fun c hc => by cases hc; decide⟩
    | filter w =>
      have hbar {t : List Char} : Lexes ['|'] [.bar] t := lexes_sign (by decide) rfl
      exact ⟨(hbar.append hname).append hlex, fun c hc => by cases hc; decide⟩

theorem lexes_word (op : BinaryOp) :
    Lexes (' ' :: ((wordOf op).toList ++ [' '])) [opLexeme op] rest := by
  have hword : Lexes (wordOf op).toList [opLexeme op] (' ' :: rest) := by
    cases op with
    | or | and =>
      exact lexes_name (by decide) (by decide) (by decide) fun c hc => by cases hc; decide
    | _ => exact lexes_sign (by decide) rfl
  exact (lexes_blank.append hword).append lexes_blank

theorem lexes_int (n : Int) (hr : Apart rest) : Lexes (Number.spelled n) (intLexemes n) rest := by
  have hdigits (m : Nat) : Lexes (Nat.toDigits 10 m) [.digits m] rest := by
    have hd : ∀ c ∈ Nat.toDigits 10 m, c.isDigit = true := fun c hc =>
      Nat.isDigit_of_mem_toDigits (by decide) (by decide) hc
    have hval : Number.digitsValue (Nat.toDigits 10 m) = m := by
      rw [Number.digitsValue_eq]
      simp
    have hrest : ∀ c ∈ rest.head?, c.isDigit = false := by
      intro c hc
      have := hr c hc
      simp only [isTemplateChar, Char.isAlphanum, Bool.or_eq_false_iff] at this
      exact this.1.2
    have hlex := lexes_digits (by simp) hd hrest
    rwa [hval] at hlex
  rw [Number.spelled_eq, intLexemes]
  split
  · exact hdigits _
  · have hminus {t : List Char} : Lexes ['-'] [.minus] t := lexes_sign (by decide) rfl
    exact hminus.append (hdigits _)

theorem lexes_wrapped {t : List Char} {ts : List Lexeme}
    (h : ∀ {rest : List Char}, Apart rest → Lexes t ts rest) (k : Nat) (e : Logic)
    (hr : Apart rest) : Lexes (wrapped k e t) (wrappedLexemes k e ts) rest := by
  rw [wrapped, wrappedLexemes]
  split
  · have hopen {t : List Char} : Lexes ['('] [.opening] t := lexes_sign (by decide) rfl
    have hclose {t : List Char} : Lexes [')'] [.closing] t := lexes_sign (by decide) rfl
    exact hopen.append ((h fun c hc => by cases hc; decide).append hclose)
  · exact h hr

/-- The text of an expression comes apart into its lexemes. -/
theorem Grouped.lexes {e : Logic} (h : e.Grouped) (hr : Apart rest) :
    Lexes e.jinja e.lexemes rest := by
  induction e generalizing rest with
  | path p =>
    obtain ⟨hhead, hsteps⟩ := MemberPath.Plain.names h
    obtain ⟨hlex, hapart⟩ := lexes_steps hsteps hr
    exact (lexes_templateName hhead hapart).append hlex
  | text body hb => exact lexes_quoted hb
  | int n => exact lexes_int n hr
  | not a ih =>
    have hnot {t : List Char} : Lexes "not ".toList [.name "not".toList] t := by
      have hword : Lexes "not".toList [.name "not".toList] (' ' :: t) :=
        lexes_name (by decide) (by decide) (by decide) fun c hc => by cases hc; decide
      exact hword.append lexes_blank
    exact hnot.append (lexes_wrapped (ih h) 5 a hr)
  | binary op a b iha ihb =>
    obtain ⟨ha, hb, -⟩ := h
    have hright := (lexes_word op).append (lexes_wrapped (ihb hb) (op.level + 1) b hr)
    have hspace : Apart (' ' :: ((wordOf op).toList ++ [' ']) ++
        wrapped (op.level + 1) b b.jinja ++ rest) := fun c hc => by cases hc; decide
    have hall := (lexes_wrapped (iha ha) op.level a hspace).append hright
    simpa [jinja, lexemes] using hall

end

/-! ### Reading -/

open Formula

section
variable {e : Logic} {rest : List Lexeme} {d k : Nat}

/-- What has no operator is read as an operand. -/
theorem Grouped.readOperand_eq (group : Parser) (hl : e.level = 6) (hr : Follows 5 rest) :
    readOperand group (e.lexemes ++ rest) = some (e.formula, rest) := by
  cases e with
  | path p => exact readOperand_access _ _ hr
  | text body _ => rfl
  | int n =>
    rw [lexemes, intLexemes]
    split
    · rename_i hn
      rw [List.singleton_append, readOperand, Int.toNat_of_nonneg hn]
      rfl
    · rename_i hn
      rw [List.cons_append, List.singleton_append, readOperand, Int.toNat_of_nonneg (by omega),
        Int.neg_neg]
      rfl
  | not a => cases hl
  | binary op a b => cases op <;> cases hl

/-- Reading gives an expression back wherever it may stand without parentheses. In a chain of `and`
or `or` it is what is read before the next operand. -/
structure Readable (e : Logic) : Prop where
  negated : ∀ {d rest}, 3 ≤ e.level → e.lexemes.length ≤ d → Follows 4 rest →
    readNegation (readComparisons (readWithin d)) (e.lexemes ++ rest) = some (e.formula, rest)
  conjoined : ∀ {d rest}, 2 ≤ e.level → e.lexemes.length ≤ d → Follows 4 rest →
    ∃ n, rest.length ≤ n ∧ readConjunction (readWithin d) (e.lexemes ++ rest) =
      joinFrom (wordJoin? "and" .and) (readNegation (readComparisons (readWithin d))) n e.formula rest
  disjoined : ∀ {d rest}, e.lexemes.length ≤ d → Follows 2 rest →
    ∃ n, rest.length ≤ n ∧ readDisjunction (readWithin d) (e.lexemes ++ rest) =
      joinFrom (wordJoin? "or" .or) (readConjunction (readWithin d)) n e.formula rest

theorem join_stops {word : String} {op : BinaryOp} {k : Nat} (hr : Follows k rest)
    (hk : k ≤ (Lexeme.name word.toList).binds) : ∀ t ∈ rest.head?, wordJoin? word op t = none := by
  intro t ht
  cases t with
  | name w =>
    refine if_neg ?_
    rintro rfl
    exact absurd (hr _ ht) (Nat.not_lt.2 hk)
  | _ => rfl

/-- All of the expression is read where nothing goes on with it. -/
theorem Readable.readWithin_eq (h : Readable e) (hd : e.lexemes.length ≤ d) (hr : Follows 1 rest) :
    readWithin (d + 1) (e.lexemes ++ rest) = some (e.formula, rest) := by
  obtain ⟨n, -, he⟩ := h.disjoined hd (hr.mono (by decide))
  rw [readWithin, he]
  exact joinFrom_stop (join_stops hr (by decide)) n

theorem Readable.readOperand_paren (h : Readable e) (hd : e.lexemes.length + 2 ≤ d) :
    readOperand (readWithin d) (.opening :: (e.lexemes ++ .closing :: rest)) =
      some (e.formula, rest) := by
  obtain ⟨d, rfl⟩ : ∃ m, d = m + 1 := ⟨d - 1, by omega⟩
  have hclosing : Follows 1 (.closing :: rest) := fun t ht => by cases ht; decide
  exact readOperand_group (h.readWithin_eq (by omega) hclosing)

theorem Readable.readOperand_closed (h : Readable e) (hc : e.Closed k)
    (hd : (wrappedLexemes k e e.lexemes).length ≤ d) (hr : Follows 5 rest) :
    readOperand (readWithin d) (wrappedLexemes k e e.lexemes ++ rest) = some (e.formula, rest) := by
  rw [wrappedLexemes] at hd ⊢
  split at hd
  · rename_i hl
    rw [if_pos hl]
    have hlen : e.lexemes.length + 2 ≤ d := by
      simp only [List.length_cons, List.length_append, List.length_nil] at hd
      omega
    simpa using h.readOperand_paren hlen
  · rename_i hl
    rw [if_neg hl]
    exact Grouped.readOperand_eq _ (hc.resolve_left hl) hr

/-- A closed operand does not start with a negation. -/
theorem Grouped.head?_ne_not (hg : e.Grouped) (hc : e.Closed k) :
    (wrappedLexemes k e e.lexemes ++ rest).head? ≠ some (.name "not".toList) := by
  rw [wrappedLexemes]
  split
  · simp
  · rename_i hl
    have hsix := hc.resolve_left hl
    cases e with
    | path p =>
      have hhead : (MemberPath.variableOf p.own.1).1 ≠ "not".toList := by
        rw [MemberPath.variableOf]
        split
        · decide
        · split
          · decide
          · exact MemberPath.Plain.head hg
      simpa [lexemes] using hhead
    | text body _ => simp [lexemes]
    | int n =>
      rw [lexemes, intLexemes]
      split <;> simp
    | not a => cases hsix
    | binary op a b => cases op <;> cases hsix

theorem Readable.negated_wrapped (h : Readable e) (hk : 3 ≤ k)
    (hd : (wrappedLexemes k e e.lexemes).length ≤ d) (hr : Follows 4 rest) :
    readNegation (readComparisons (readWithin d)) (wrappedLexemes k e e.lexemes ++ rest) =
      some (e.formula, rest) := by
  by_cases hl : e.level < k
  · have hop := h.readOperand_closed (.inl hl) hd (hr.mono (by decide))
    rw [wrappedLexemes, if_pos hl] at hop ⊢
    rw [readNegation_of_ne (by simp)]
    exact readComparisons_operand hop hr
  · rw [wrappedLexemes, if_neg hl] at hd ⊢
    exact h.negated (by omega) hd hr

theorem readConjunction_of_negation {a : Formula} {ts : List Lexeme}
    (h : readNegation (readComparisons (readWithin d)) ts = some (a, rest)) :
    readConjunction (readWithin d) ts =
      joinFrom (wordJoin? "and" .and) (readNegation (readComparisons (readWithin d))) rest.length a
        rest := by
  rw [readConjunction, readJoined, h]
  rfl

theorem Readable.conjoined_wrapped (h : Readable e)
    (hd : (wrappedLexemes 2 e e.lexemes).length ≤ d) (hr : Follows 4 rest) :
    ∃ n, rest.length ≤ n ∧ readConjunction (readWithin d) (wrappedLexemes 2 e e.lexemes ++ rest) =
      joinFrom (wordJoin? "and" .and) (readNegation (readComparisons (readWithin d))) n e.formula
        rest := by
  by_cases hl : e.level < 2
  · have hop := h.readOperand_closed (.inl hl) hd (hr.mono (by decide))
    rw [wrappedLexemes, if_pos hl] at hop ⊢
    refine ⟨rest.length, Nat.le_refl _, readConjunction_of_negation ?_⟩
    rw [readNegation_of_ne (by simp)]
    exact readComparisons_operand hop hr
  · rw [wrappedLexemes, if_neg hl] at hd ⊢
    exact h.conjoined (by omega) hd hr

/-- From what is read under a negation all else follows. -/
theorem readable_of_negated
    (h : ∀ {d rest}, e.lexemes.length ≤ d → Follows 4 rest →
      readNegation (readComparisons (readWithin d)) (e.lexemes ++ rest) = some (e.formula, rest)) :
    Readable e := by
  have hconj {d : Nat} {rest : List Lexeme} (hd : e.lexemes.length ≤ d) (hr : Follows 4 rest) :=
    readConjunction_of_negation (h hd hr)
  refine ⟨fun _ => h, fun _ hd hr => ⟨_, Nat.le_refl _, hconj hd hr⟩, fun {d rest} hd hr => ?_⟩
  refine ⟨rest.length, Nat.le_refl _, ?_⟩
  rw [readDisjunction, readJoined, hconj hd (hr.mono (by decide)),
    joinFrom_stop (join_stops hr (by decide))]
  rfl

theorem readable_not {a : Logic} (ha : Readable a) : Readable (.not a) := by
  refine readable_of_negated fun {d rest} hd hr => ?_
  have hd' : (wrappedLexemes 5 a a.lexemes).length ≤ d := by
    simp only [lexemes, List.length_cons] at hd
    omega
  rw [lexemes, List.cons_append, readNegation, if_pos rfl, ha.negated_wrapped (by decide) hd' hr]
  rfl

theorem opLexeme_of_isComparison {op : BinaryOp} (h : op.isComparison = true) :
    opLexeme op = .comparison op := by
  cases op with
  | or | and => cases h
  | _ => rfl

theorem readable_compare {op : BinaryOp} {a b : Logic} (hop : op.isComparison = true)
    (hg : a.Grouped) (ha : Readable a) (hb : Readable b) (hca : a.Closed op.level)
    (hcb : b.Closed (op.level + 1)) : Readable (.binary op a b) := by
  refine readable_of_negated fun {d rest} hd hr => ?_
  simp only [lexemes, List.length_append, List.length_cons] at hd
  have hfirst : readOperand (readWithin d) (wrappedLexemes op.level a a.lexemes ++
      .comparison op :: (wrappedLexemes (op.level + 1) b b.lexemes ++ rest)) =
      some (a.formula, .comparison op :: (wrappedLexemes (op.level + 1) b b.lexemes ++ rest)) :=
    ha.readOperand_closed hca (by omega) fun t ht => by cases ht; simp [Lexeme.binds]
  have hsecond := hb.readOperand_closed hcb (d := d) (by omega) (hr.mono (by decide))
  rw [lexemes, opLexeme_of_isComparison hop, List.append_assoc, List.cons_append,
    readNegation_of_ne (hg.head?_ne_not hca)]
  exact readComparisons_binary hfirst hsecond hr

/-- A conjunction reads back from its operands, with parentheses around those that need them. -/
theorem readable_and {a b : Logic} (ha : Readable a) (hb : Readable b) :
    Readable (.binary .and a b) := by
  have hconj {d : Nat} {rest : List Lexeme} (hd : (Logic.binary .and a b).lexemes.length ≤ d)
      (hr : Follows 4 rest) : ∃ n, rest.length ≤ n ∧
      readConjunction (readWithin d) ((Logic.binary .and a b).lexemes ++ rest) =
        joinFrom (wordJoin? "and" .and) (readNegation (readComparisons (readWithin d))) n
          (Logic.binary .and a b).formula rest := by
    simp only [lexemes, List.length_append, List.length_cons] at hd
    have hword : Follows 4 (opLexeme .and :: (wrappedLexemes 3 b b.lexemes ++ rest)) :=
      fun t ht => by cases ht; decide
    obtain ⟨n, hn, hfirst⟩ :=
      ha.conjoined_wrapped (d := d) (Nat.le_trans (Nat.le_add_right _ _) hd) hword
    obtain ⟨n, rfl⟩ : ∃ m, n = m + 1 := ⟨n - 1, by simp at hn; omega⟩
    have hlen : (wrappedLexemes 3 b b.lexemes).length ≤ d := by
      simp only [BinaryOp.level, Nat.reduceAdd] at hd
      omega
    have hsecond := hb.negated_wrapped (by decide) hlen hr
    refine ⟨n, by simp at hn; omega, ?_⟩
    rw [lexemes, List.append_assoc, List.cons_append]
    exact hfirst.trans (joinFrom_next rfl hsecond)
  refine ⟨fun hl => absurd hl (by simp [level, BinaryOp.level]), fun _ => hconj,
    fun {d rest} hd hr => ?_⟩
  obtain ⟨n, -, he⟩ := hconj hd (hr.mono (by decide))
  refine ⟨rest.length, Nat.le_refl _, ?_⟩
  rw [readDisjunction, readJoined, he, joinFrom_stop (join_stops hr (by decide))]
  rfl

/-- A disjunction reads back from its operands. -/
theorem readable_or {a b : Logic} (ha : Readable a) (hb : Readable b) :
    Readable (.binary .or a b) := by
  refine ⟨fun hl => absurd hl (by simp [level, BinaryOp.level]),
    fun hl => absurd hl (by simp [level, BinaryOp.level]), fun {d rest} hd hr => ?_⟩
  have hwrap : wrappedLexemes 1 a a.lexemes = a.lexemes :=
    if_neg (Nat.not_lt.2 (one_le_level a))
  have hlens : a.lexemes.length ≤ d ∧ (wrappedLexemes 2 b b.lexemes).length ≤ d := by
    simp only [lexemes, List.length_append, List.length_cons, BinaryOp.level, Nat.reduceAdd,
      hwrap] at hd
    omega
  have hword : Follows 2 (opLexeme .or :: (wrappedLexemes 2 b b.lexemes ++ rest)) :=
    fun t ht => by cases ht; decide
  obtain ⟨n, hn, hfirst⟩ := ha.disjoined hlens.1 hword
  obtain ⟨n, rfl⟩ : ∃ m, n = m + 1 := ⟨n - 1, by simp at hn; omega⟩
  have hsecond : readConjunction (readWithin d) (wrappedLexemes 2 b b.lexemes ++ rest) =
      some (b.formula, rest) := by
    obtain ⟨m, -, he⟩ := hb.conjoined_wrapped hlens.2 (hr.mono (by decide))
    exact he.trans (joinFrom_stop (join_stops hr (by decide)) m)
  refine ⟨n, by simp at hn; omega, ?_⟩
  rw [lexemes, List.append_assoc, List.cons_append, BinaryOp.level, hwrap]
  exact hfirst.trans (joinFrom_next rfl hsecond)

/-- What has no operator is readable. -/
theorem Grouped.readable_operand (h : e.Grouped) (hl : e.level = 6) : Readable e := by
  refine readable_of_negated fun {d rest} hd hr => ?_
  have hhead : (wrappedLexemes 1 e e.lexemes ++ rest).head? ≠ some (.name "not".toList) :=
    h.head?_ne_not (.inr hl)
  rw [wrappedLexemes, if_neg (by omega)] at hhead
  rw [readNegation_of_ne hhead]
  exact readComparisons_operand (Grouped.readOperand_eq _ hl (hr.mono (by decide))) hr

/-- Every grouped expression is read back. -/
theorem Grouped.readable (h : e.Grouped) : Readable e := by
  induction e with
  | path p => exact Grouped.readable_operand h rfl
  | text body hb => exact Grouped.readable_operand h rfl
  | int n => exact Grouped.readable_operand h rfl
  | not a ih => exact readable_not (ih h)
  | binary op a b iha ihb =>
    obtain ⟨ha, hb, hclosed⟩ := h
    by_cases hop : op.isComparison = true
    · obtain ⟨hca, hcb⟩ := hclosed hop
      exact readable_compare hop ha (iha ha) (ihb hb) hca hcb
    · cases op with
      | or => exact readable_or (iha ha) (ihb hb)
      | and => exact readable_and (iha ha) (ihb hb)
      | _ => exact absurd rfl hop

end

/-- A grouped expression keeps its grouping: the template expression for any text of it with no more
parentheses than needed is read as the same formula. -/
theorem translated_text_keeps_grouping {e : Logic} {t : List Char} (h : Prints 1 e t)
    (hg : e.Grouped) : Formula.parse? (translateText {} t) = some e.formula := by
  have hlex : lexFrom 0 e.jinja = some e.lexemes := by
    have hall : Lexes e.jinja e.lexemes [] := hg.lexes fun c hc => by cases hc
    simpa [Lexes, lexFrom] using hall
  have hread : readWithin (e.lexemes.length + 1) e.lexemes = some (e.formula, []) := by
    simpa using hg.readable.readWithin_eq (Nat.le_refl _) (follows_nil 1)
  rw [h.translateText_eq hg, Formula.parse?, hlex, Option.bind_some, Formula.ofLexemes?, hread]

theorem prints_path {k : Nat} {p : MemberPath} {t : List Char} (h : p.text = t) :
    Prints k (.path p) t := by
  rw [← h]
  exact .path p

/-- `size==='sm' && !(items.length>0 || props?.open)` -/
def smallAndClosed : Logic :=
  .binary .and
    (.binary .eq (.path ⟨"size".toList, [], rfl, by decide⟩)
      (.text "sm".toList (literalBody_of_plain (by decide) (by decide))))
    (.not (.binary .or
      (.binary .gt (.path ⟨"items".toList, [(false, "length".toList)], rfl, by decide⟩) (.int 0))
      (.path ⟨"props".toList, [(true, "open".toList)], rfl, by decide⟩)))

/-- A conjunction with a negated group, whose parentheses stay. -/
theorem small_and_closed_keeps_grouping :
    Prints 1 smallAndClosed "size==='sm' && !(items.length>0 || props?.open)".toList ∧
    smallAndClosed.Grouped ∧
    Formula.parse? (translateText {} "size==='sm' && !(items.length>0 || props?.open)".toList) =
      some smallAndClosed.formula := by
  have hspace : Blank [' '] := by simp [Blank, isBlank]
  have heq : Prints 2 (.binary .eq (.path ⟨"size".toList, [], rfl, by decide⟩)
      (.text "sm".toList (literalBody_of_plain (by decide) (by decide))))
      ("size".toList ++ ([] ++ (BinaryOp.eq.code ++ ([] ++ "'sm'".toList)))) :=
    .binary (by decide) (prints_path (by decide)) (.text _) blank_nil blank_nil
  have hgt : Prints 1 (.binary .gt
      (.path ⟨"items".toList, [(false, "length".toList)], rfl, by decide⟩) (.int 0))
      ("items.length".toList ++ ([] ++ (BinaryOp.gt.code ++ ([] ++ "0".toList)))) :=
    .binary (by decide) (prints_path (by decide)) (.int 0) blank_nil blank_nil
  have hopen : Prints 2 (.path ⟨"props".toList, [(true, "open".toList)], rfl, by decide⟩)
      "props?.open".toList := prints_path (by decide)
  have hor : Prints 1 (.binary .or _ _) _ := .binary (by decide) hgt hopen hspace hspace
  have hnot : Prints 3 (.not _) _ :=
    .not (by decide) (.paren (by decide) hor blank_nil blank_nil) blank_nil
  have htext : Prints 1 smallAndClosed
      "size==='sm' && !(items.length>0 || props?.open)".toList :=
    (.binary (by decide) heq hnot hspace hspace : Prints 1 (.binary .and _ _) _)
  have hgrouped : smallAndClosed.Grouped := by decide
  exact ⟨htext, hgrouped, translated_text_keeps_grouping htext hgrouped⟩

/-- `!a === b` -/
def negatedComparison : Logic :=
  .binary .eq (.not (.path ⟨['a'], [], rfl, by simp⟩)) (.path ⟨['b'], [], rfl, by simp⟩)

/-- A negation under a comparison comes to stand over it. -/
theorem negated_operand_loses_grouping :
    Prints 1 negatedComparison "!a === b".toList ∧
    Formula.parse? (translateText {} "!a === b".toList) ≠ some negatedComparison.formula := by
  have hspace : Blank [' '] := by simp [Blank, isBlank]
  have hnot : Prints 3 (.not (.path ⟨['a'], [], rfl, by simp⟩)) ('!' :: ([] ++ ['a'])) :=
    .not (by decide) (prints_path (by decide)) blank_nil
  have hall : Prints 1 negatedComparison
      ('!' :: ([] ++ ['a']) ++ ([' '] ++ (BinaryOp.eq.code ++ ([' '] ++ ['b'])))) :=
    .binary (by decide) hnot (prints_path (by decide)) hspace hspace
  refine ⟨hall, ?_⟩
  decide +kernel

end Logic

end JsxToJinja.Code
