import Mathlib.Data.List.Find
import Mathlib.Data.List.TakeWhile
import JsxToJinja.Proofs.Jinja.Depth
import JsxToJinja.Proofs.Jinja.Variables
import JsxToJinja.Proofs.Jinja.Writing

/-! Properly nested code is written one token after the other. What is written for it depends neither
on what was written before nor on what comes behind, as long as no token goes on from one to the other,
and it has no blanks at its ends where the code ends in an operand. -/
namespace JsxToJinja.Code
open JsxToJinja.Text

theorem Sealed.tail {c : Char} {t : List Char} (h : Sealed [] (c :: t)) (hc : isOrdinary c = true) :
    Sealed [] t := by
  cases h with
  | plain _ _ ht => exact ht
  | link _ ht => exact .plain List.not_mem_nil (by decide) ht
  | literal hq _ _ => simp [isOrdinary, hq] at hc
  | group hclose _ _ =>
    obtain ⟨rfl, -⟩ | ⟨rfl, -⟩ | ⟨rfl, -⟩ := closingFor?_cases hclose <;> cases hc

theorem Sealed.behind {w t : List Char} (h : Sealed [] (w ++ t)) (hw : ∀ c ∈ w, isOrdinary c = true) :
    Sealed [] t := by
  induction w with
  | nil => exact h
  | cons c w ih =>
    exact ih (Sealed.tail h (hw c List.mem_cons_self)) fun d hd => hw d (List.mem_cons_of_mem _ hd)

end JsxToJinja.Code

namespace JsxToJinja.Jinja
open JsxToJinja.Text JsxToJinja.Code

variable {names : NameMap} {write : Writer} {out t r : List Char}

/-! ### What may stand around -/

/-- No name and no operator goes on with the text. -/
def Stops (rest : List Char) : Prop :=
  ∀ c ∈ rest.head?, isIdentifierChar c = false ∧ c ∉ '.' :: operatorHeads

/-- Nothing is written yet, or one blank behind something. -/
def Resting (base : List Char) : Prop := base = [] ∨ ∃ c b, base = ' ' :: c :: b ∧ isBlank c = false

theorem stops_nil : Stops [] := by simp [Stops]

theorem resting_nil : Resting [] := .inl rfl

theorem Resting.head?_ne {base : List Char} (h : Resting base) : base.head? ≠ some '.' := by
  obtain rfl | ⟨c, b, rfl, -⟩ := h <;> simp

theorem Stops.startsWith_append {rest : List Char} (h : Stops rest) {n : List Char}
    (hn : ∀ c ∈ n, c ∈ '.' :: operatorHeads) (t : List Char) : startsWith (t ++ rest) n = startsWith t n :=
  Text.startsWith_append (fun c hc hm => (h c hc).2 (hn c hm)) t

theorem Stops.operatorAt?_append {rest : List Char} (h : Stops rest) (t : List Char) :
    operatorAt? (t ++ rest) = operatorAt? t := by
  have hchars : ∀ o ∈ operators, ∀ c ∈ o.1.toList, c ∈ '.' :: operatorHeads := by decide
  rw [operatorAt?, operatorAt?, List.find?_congr fun o ho => h.startsWith_append (hchars o ho) t]

theorem Stops.append {rest : List Char} (h : Stops rest)
    (hr : ∀ c ∈ r.head?, isIdentifierChar c = false) :
    ∀ c ∈ (r ++ rest).head?, isIdentifierChar c = false := by
  cases r with
  | nil => exact fun c hc => (h c hc).1
  | cons d r => exact hr

theorem Resting.space_append {base : List Char} (h : Resting base) (out : List Char) :
    space (out ++ base) = space out ++ base := by
  cases out with
  | nil => obtain rfl | ⟨c, b, rfl, -⟩ := h <;> rfl
  | cons c out =>
    rw [List.cons_append, space, space]
    split <;> rfl

/-- Behind a text at rest an operator is written as it is on its own. -/
theorem Resting.writeOperator_append {base : List Char} (h : Resting base) (out : List Char)
    (op : Operator) : writeOperator (out ++ base) op = writeOperator out op ++ base := by
  cases op with
  | member => rfl
  | negation =>
    rw [writeOperator, writeOperator, h.space_append, List.append_assoc]
  | infixed text =>
    rw [writeOperator, writeOperator]
    by_cases hblank : Blank out
    · -- only blanks so far: they give way to the one that is there
      have hnone : out.dropWhile isBlank = [] := List.dropWhile_eq_nil_iff.2 hblank
      have hdrop : (out ++ base).dropWhile isBlank = base.dropWhile isBlank := by
        rw [List.dropWhile_append_of_pos hblank]
      rw [hdrop, hnone]
      obtain rfl | ⟨c, b, rfl, hc⟩ := h
      · simp
      · have hspace : isBlank ' ' = true := by decide
        simp [hc, hspace]
    · have hsome : out.dropWhile isBlank ≠ [] := fun hnil => hblank (List.dropWhile_eq_nil_iff.1 hnil)
      have hdrop : (out ++ base).dropWhile isBlank = out.dropWhile isBlank ++ base := by
        rw [List.dropWhile_append, if_neg (by simpa using hsome)]
      simp [hdrop, hsome]

/-- Behind a text at rest a word is written as it is on its own. -/
theorem writeWord_append {base rest : List Char} (hb : Resting base) (hs : Stops rest)
    (names : NameMap) (out w r : List Char) :
    writeWord names (out ++ base) w (r ++ rest) =
      ((writeWord names out w r).1 ++ base, (writeWord names out w r).2) := by
  have hdot : ((out ++ base).head? == some '.') = (out.head? == some '.') := by
    cases out with
    | nil => simpa using hb.head?_ne
    | cons c out => rfl
  rw [writeWord, writeWord, hdot, hs.startsWith_append (by decide), hs.startsWith_append (by decide)]
  split
  · rename_i hmember
    have hdrop : (out ++ base).drop 1 = out.drop 1 ++ base := by
      cases out with
      | nil => cases hmember
      | cons c out => rfl
    split <;> simp [hdrop]
  · repeat' split
    all_goals simp

/-! ### Tokens -/

/-- The first token of a text is written; what is left of the text comes last. -/
inductive Token (names : NameMap) (write : Writer) (out : List Char) :
    List Char → List Char → List Char → Prop where
  | blank {c : Char} {r : List Char} : isBlank c = true → Token names write out (c :: r) (space out) r
  | literal {q : Char} {body r : List Char} : isQuote q = true → LiteralBody q body →
      Token names write out (q :: (body ++ q :: r))
        ((literalText write (q :: (body ++ [q]))).reverse ++ out) r
  | group {o c : Char} {inner r : List Char} : closingFor? o = some c → Sealed [] inner →
      Token names write out (o :: (inner ++ c :: r))
        ((groupText write (o :: (inner ++ [c]))).reverse ++ out) r
  | operator {o : String × Operator} {r : List Char} : o ∈ operators →
      operatorAt? (o.1.toList ++ r) = some (o.1.length, o.2) →
      Token names write out (o.1.toList ++ r) (writeOperator out o.2) r
  | word {w r : List Char} : isIdentifier w = true → (∀ c ∈ r.head?, isIdentifierChar c = false) →
      (writeWord names out w r).2 = 0 →
      Token names write out (w ++ r) (writeWord names out w r).1 r
  /-- A leading `props` goes with the link behind it. -/
  | props {link r : List Char} : out.head? ≠ some '.' → link = ['.'] ∨ link = ['?', '.'] →
      Token names write out ("props".toList ++ (link ++ r)) out r
  | char {c : Char} {r : List Char} : isOrdinary c = true → isBlank c = false →
      operatorAt? (c :: r) = none → isIdentifierStart c = false → Token names write out (c :: r) (c :: out) r

/-- Only `props` uses up characters behind it, those of its link. -/
theorem writeWord_cases (names : NameMap) (out w after : List Char) :
    (writeWord names out w after).2 = 0 ∨
      (w = "props".toList ∧ out.head? ≠ some '.' ∧
        ∃ link r, (link = ['.'] ∨ link = ['?', '.']) ∧ after = link ++ r ∧
          writeWord names out w after = (out, link.length)) := by
  rw [writeWord]
  split
  · split <;> exact .inl rfl
  · rename_i hdot
    split
    · exact .inl rfl
    · split
      · rename_i hprops
        simp only [Bool.and_eq_true, beq_iff_eq, startsWith, List.isPrefixOf_iff_prefix] at hprops
        obtain ⟨hw, r, hr⟩ := hprops
        exact .inr ⟨hw, by simpa using hdot, ['.'], r, .inl rfl, hr.symm, rfl⟩
      · split
        · rename_i hprops
          simp only [Bool.and_eq_true, beq_iff_eq, startsWith, List.isPrefixOf_iff_prefix] at hprops
          obtain ⟨hw, r, hr⟩ := hprops
          exact .inr ⟨hw, by simpa using hdot, ['?', '.'], r, .inr rfl, hr.symm, rfl⟩
        · split <;> exact .inl rfl

theorem ordinary_of_mem_operator {o : String × Operator} (ho : o ∈ operators) :
    ∀ c ∈ o.1.toList, isOrdinary c = true := by
  have hall : ∀ o ∈ operators, ∀ c ∈ o.1.toList, isOrdinary c = true := by decide
  exact hall o ho

/-- Every properly nested text has a first token, and what is left is properly nested. -/
theorem exists_token (names : NameMap) (write : Writer) (out : List Char) (h : Sealed [] t)
    (hne : t ≠ []) : ∃ out' r, Token names write out t out' r ∧ Sealed [] r := by
  have hordinary {c : Char} {u : List Char} (ht : t = c :: u) (hc : isOrdinary c = true) :
      ∃ out' r, Token names write out t out' r ∧ Sealed [] r := by
    subst ht
    by_cases hblank : isBlank c = true
    · exact ⟨_, u, .blank hblank, h.tail hc⟩
    rw [Bool.not_eq_true] at hblank
    cases hop : operatorAt? (c :: u) with
    | some found =>
      obtain ⟨o, ho, rfl⟩ := Option.map_eq_some_iff.1 hop
      have hstarts := List.find?_some ho
      simp only [startsWith, List.isPrefixOf_iff_prefix] at hstarts
      obtain ⟨r, hr⟩ := hstarts
      have hmem := List.mem_of_find?_eq_some ho
      rw [← hr] at h hop ⊢
      exact ⟨_, r, .operator hmem hop, h.behind (ordinary_of_mem_operator hmem)⟩
    | none =>
      by_cases hstart : isIdentifierStart c = true
      · have hchars : ∀ d ∈ (c :: u).takeWhile isIdentifierChar, isIdentifierChar d = true :=
          fun d hd => List.all_eq_true.1 List.all_takeWhile d hd
        have hword : isIdentifier ((c :: u).takeWhile isIdentifierChar) = true := by
          rw [List.takeWhile_cons, if_pos (isIdentifierChar_of_start hstart)] at hchars ⊢
          simp only [isIdentifier, hstart, Bool.true_and, List.all_eq_true]
          exact fun d hd => hchars d (List.mem_cons_of_mem _ hd)
        have hafter : ∀ d ∈ ((c :: u).dropWhile isIdentifierChar).head?, isIdentifierChar d = false := by
          intro d hd
          have := List.head?_dropWhile_not isIdentifierChar (c :: u)
          rw [Option.mem_def.1 hd] at this
          simpa using this
        have hrest : Sealed [] ((c :: u).dropWhile isIdentifierChar) := by
          rw [← List.takeWhile_append_dropWhile (p := isIdentifierChar) (l := c :: u)] at h
          exact h.behind fun d hd => isOrdinary_of_isIdentifierChar (hchars d hd)
        rw [← List.takeWhile_append_dropWhile (p := isIdentifierChar) (l := c :: u)]
        generalize (c :: u).takeWhile isIdentifierChar = w at hword
        generalize (c :: u).dropWhile isIdentifierChar = after at hafter hrest
        rcases writeWord_cases names out w after with hzero | ⟨rfl, hdot, link, r, hlink, rfl, -⟩
        · exact ⟨_, after, .word hword hafter hzero, hrest⟩
        · refine ⟨out, r, .props hdot hlink, hrest.behind ?_⟩
          rcases hlink with rfl | rfl <;> decide
      · exact ⟨_, u, .char hc hblank hop (by simpa using hstart), h.tail hc⟩
  cases id h with
  | nil => exact absurd rfl hne
  | plain _ hc _ => exact hordinary rfl hc
  | link _ _ => exact hordinary rfl (by decide)
  | literal hq hb hr => exact ⟨_, _, .literal hq hb, hr⟩
  | group hc hi hr => exact ⟨_, _, .group hc hi, hr⟩

namespace Token

theorem length_lt {out' : List Char} (h : Token names write out t out' r) : r.length < t.length := by
  cases h with
  | blank _ => simp
  | literal _ _ => simp; omega
  | group _ _ => simp; omega
  | @operator o r ho _ =>
    have hall : ∀ o ∈ operators, 0 < o.1.toList.length := by decide
    have := hall o ho
    simp only [List.length_append]
    omega
  | word hw _ _ =>
    have := List.length_pos_iff.2 (ne_nil_of_isIdentifier hw)
    simp only [List.length_append]
    omega
  | props _ _ => simp; omega
  | char _ _ _ _ => simp

theorem suffix {out' : List Char} (h : Token names write out t out' r) : r <:+ t := by
  cases h with
  | blank _ => exact List.suffix_cons _ r
  | @literal q body r _ _ => exact ⟨q :: (body ++ [q]), by simp⟩
  | @group o c inner r _ _ => exact ⟨o :: (inner ++ [c]), by simp⟩
  | operator _ _ => exact List.suffix_append _ r
  | word _ _ _ => exact List.suffix_append _ r
  | @props link r _ _ => exact ⟨"props".toList ++ link, by simp⟩
  | char _ _ _ _ => exact List.suffix_cons _ r

/-- A token is written the same way wherever it stands. -/
theorem writeFrom_eq {out' : List Char} (h : Token names write out t out' r) {base rest : List Char}
    (hb : Resting base) (hs : Stops rest) :
    writeFrom names write 0 (out ++ base) (t ++ rest) =
      writeFrom names write 0 (out' ++ base) (r ++ rest) := by
  cases h with
  | blank hc => rw [List.cons_append, writeFrom, if_pos hc, hb.space_append]
  | literal hq hbody =>
    simp only [List.cons_append, List.append_assoc]
    exact writeFrom_literal write _ hq hbody
  | group hc hi =>
    simp only [List.cons_append, List.append_assoc]
    exact writeFrom_bracket write _ hc hi
  | @operator o r ho hat =>
    obtain ⟨c, u, hu, hc, hlen⟩ := operator_cons ho
    rw [← hs.operatorAt?_append] at hat
    simp only [hu, List.cons_append, List.append_assoc] at hat ⊢
    rw [writeFrom_at write hc hat, hlen, hb.writeOperator_append]
    exact writeFrom_skip write _ u _ 0
  | @word w r hw hr hzero =>
    rw [List.append_assoc, writeFrom_word write _ hw (hs.append hr), writeWord_append hb hs, hzero]
  | @props link r hdot hlink =>
    have hword : isIdentifier "props".toList = true := rfl
    have hafter : ∀ c ∈ (link ++ (r ++ rest)).head?, isIdentifierChar c = false := by
      rcases hlink with rfl | rfl <;> (rintro c hc; cases hc; decide)
    have hdot' : (out ++ base).head? ≠ some '.' := by
      cases out with
      | nil => exact hb.head?_ne
      | cons c out => exact hdot
    have hwrite : writeWord names (out ++ base) "props".toList (link ++ (r ++ rest)) =
        (out ++ base, link.length) := by
      rw [writeWord, if_neg (by simpa using hdot')]
      rcases hlink with rfl | rfl <;> rfl
    rw [List.append_assoc, List.append_assoc, writeFrom_word write _ hword hafter, hwrite]
    exact writeFrom_skip write _ link _ 0
  | @char c r ho hblank hop hstart =>
    simp only [isOrdinary, Bool.and_eq_true, Bool.not_eq_true'] at ho
    rw [← hs.operatorAt?_append, List.cons_append] at hop
    rw [List.cons_append, writeFrom, if_neg (by simp [hblank]), if_neg (by simp [ho]),
      if_neg (by simp [ho]), hop]
    simp [hstart]

end Token

/-- What is written for a text depends on nothing around it. -/
theorem writeFrom_around (h : Sealed [] t) (out : List Char) {base rest : List Char} (hb : Resting base)
    (hs : Stops rest) :
    writeFrom names write 0 (out ++ base) (t ++ rest) =
      writeFrom names write 0 (writeFrom names write 0 out t ++ base) rest := by
  induction hn : t.length using Nat.strongRecOn generalizing t out with
  | ind n ih =>
    subst hn
    by_cases hne : t = []
    · subst hne
      rfl
    · obtain ⟨out', r, htoken, hr⟩ := exists_token names write out h hne
      have hself := htoken.writeFrom_eq resting_nil stops_nil
      simp only [List.append_nil] at hself
      rw [htoken.writeFrom_eq hb hs, hself]
      exact ih r.length htoken.length_lt hr out' rfl

/-! ### The ends of what is written -/

def endsOperand (c : Char) : Bool := isIdentifierChar c || isQuote c || isClosing c

theorem not_blank_of_endsOperand {c : Char} (h : endsOperand c = true) : isBlank c = false := by
  simp only [endsOperand, isClosing, Bool.or_eq_true, beq_iff_eq] at h
  rcases h with (h | h) | (rfl | rfl) | rfl
  · exact not_blank_of_isIdentifierChar h
  · exact not_blank_of_isQuote h
  all_goals decide

/-- Names and parts bring no blanks to the ends of what is written. -/
structure Trims (names : NameMap) (write : Writer) : Prop where
  names : ∀ w, isIdentifier w = true → Edged (names.resolve (String.ofList w)).toList
  parts : ∀ s, ' ' ∉ write s → Trimmed (write s)

/-- What is translated in parts has no blank at its ends. -/
theorem trims_translateWithin (declared : List String) (depth : Nat) :
    Trims (.ofNames declared) (translateWithin (.ofNames declared) (depth + 1)) where
  names w hw := by
    rw [NameMap.resolve_ofNames]
    split
    · refine edged_of_all (by simp) fun c hc => ?_
      rw [String.toList_append, String.toList_ofList, List.mem_append] at hc
      rw [isEdge]
      rcases hc with hc | hc
      · simp [isIdentifierChar_of_mem hw hc]
      · have hsuffix : ∀ c ∈ "_attr".toList, isIdentifierChar c = true := by decide
        simp [hsuffix c hc]
    · rw [String.toList_ofList]
      exact edged_of_isIdentifier hw
  parts s hs := by
    rw [translateWithin, translateStep] at hs ⊢
    cases hsplit : splitTernary? (stripOuterParens s) with
    | none => exact trimmed_trim _
    | some parts =>
      rw [hsplit] at hs
      exact absurd (by simp) hs

/-- The text ends in an operand, and a template literal there is not written as nothing. -/
structure EndsOperand (write : Writer) (t : List Char) : Prop where
  last : ∃ c ∈ t.getLast?, endsOperand c = true
  literal : ∀ body, '\x60' :: (body ++ ['\x60']) <:+ t → LiteralBody '\x60' body →
    literalText write ('\x60' :: (body ++ ['\x60'])) ≠ []

theorem EndsOperand.suffix (h : EndsOperand write t) (hr : r <:+ t) (hne : r ≠ []) :
    EndsOperand write r := by
  obtain ⟨w, rfl⟩ := hr
  obtain ⟨c, hc, hend⟩ := h.last
  refine ⟨⟨c, ?_, hend⟩, fun body hb => h.literal body (hb.trans (List.suffix_append _ _))⟩
  rwa [List.getLast?_append_of_ne_nil _ hne] at hc

private theorem trimmed_quoteText (t : List Char) : Trimmed (quoteText t) :=
  trimmed_literal (by decide) _

private theorem trimmed_inParens (t : List Char) : Trimmed (inParens t) :=
  trimmed_cons_concat (by decide) (by decide) t

theorem Trims.trimmed_template (h : Trims names write) {u : List Char}
    (hu : templateLiteralWith? write t = some u) : Trimmed u := by
  rw [templateLiteralWith?] at hu
  obtain ⟨parts, -, rfl⟩ := Option.map_eq_some_iff.1 hu
  split
  · exact trimmed_literal (q := '\x27') (by decide) []
  · rename_i one hone
    obtain ⟨part, -, rfl⟩ := List.map_eq_singleton_iff.1 hone
    cases part with
    | text s => exact trimmed_quoteText _
    | expr code =>
      rw [partText]
      split
      · exact trimmed_inParens _
      · rename_i hspace
        exact h.parts _ (by simpa using hspace)
  · exact trimmed_inParens _

theorem Trims.trimmed_literalText (h : Trims names write) (t : List Char) :
    Trimmed (literalText write t) := by
  rw [literalText.eq_def]
  dsimp only
  split
  · cases htemplate : templateLiteralWith? write _ with
    | none => exact trimmed_quoteText _
    | some u => exact h.trimmed_template htemplate
  · exact trimmed_literal (by decide) _
  · exact trimmed_quoteText _

/-- What is written for a word does not end in a blank. -/
theorem Trims.writeWord_head (h : Trims names write) {w : List Char} (hw : isIdentifier w = true)
    (out : List Char) (hzero : (writeWord names out w r).2 = 0) :
    ∃ c ∈ (writeWord names out w r).1.head?, isBlank c = false := by
  have hpush {u : List Char} (hu : Edged u) (out : List Char) :
      ∃ c ∈ (u.reverse ++ out).head?, isBlank c = false := by
    obtain ⟨c, hc, hedge⟩ := hu.last
    exact ⟨c, by rw [List.head?_append, List.head?_reverse, Option.mem_def.1 hc]; rfl,
      not_blank_of_isEdge hedge⟩
  generalize hword : writeWord names out w r = result at hzero ⊢
  rw [writeWord] at hword
  split at hword
  · split at hword <;> subst hword
    · exact ⟨'h', rfl, by decide⟩
    · exact hpush (edged_of_isIdentifier hw) out
  · split at hword
    · subst hword
      exact ⟨'e', rfl, by decide⟩
    · split at hword
      · subst hword
        cases hzero
      · split at hword
        · subst hword
          cases hzero
        · split at hword <;> subst hword
          · exact ⟨'t', rfl, by decide⟩
          · exact hpush (h.names w hw) out

/-- A last token that ends an operand does not leave a blank at the end. -/
theorem Token.head?_not_blank {out' : List Char} (h : Token names write out t out' [])
    (hw : Trims names write) (hend : EndsOperand write t) : ∃ c ∈ out'.head?, isBlank c = false := by
  obtain ⟨c, hc, hc'⟩ := hend.last
  generalize hr : ([] : List Char) = r at h
  have hpush {u : List Char} (hu : Trimmed u) (hne : u ≠ []) :
      ∃ c ∈ (u.reverse ++ out).head?, isBlank c = false := by
    refine ⟨u.getLast hne, ?_, hu.last _ (List.getLast?_eq_some_getLast hne)⟩
    rw [List.head?_append, List.head?_reverse, List.getLast?_eq_some_getLast hne]
    rfl
  cases h with
  | blank hblank =>
    subst hr
    rw [List.getLast?_singleton, Option.mem_some_iff] at hc
    rw [hc, not_blank_of_endsOperand hc'] at hblank
    cases hblank
  | @literal q body _ hq hb =>
    subst hr
    refine hpush (hw.trimmed_literalText _) ?_
    by_cases htick : q = '\x60'
    · subst htick
      exact hend.literal body List.suffix_rfl hb
    · rw [literalText.eq_def]
      dsimp only
      split
      · rename_i heq
        exact absurd (List.cons.inj heq).1 htick
      · simp
      · simp [quoteText]
  | @group o d inner _ hclose hi =>
    have hlast : ∃ u, groupText write (o :: (inner ++ [d])) = u ++ [d] := by
      rw [groupText.eq_def]
      split
      · exact ⟨_, (List.cons_append ..).symm⟩
      · rename_i heq
        obtain ⟨rfl, rfl⟩ := List.cons.inj heq
        exact ⟨o :: write (groupInner (o :: (inner ++ [d]))), by simp [List.getLast?_cons]⟩
      · rename_i heq
        cases heq
    obtain ⟨u, hu⟩ := hlast
    refine ⟨d, by simp [hu], ?_⟩
    obtain ⟨-, rfl⟩ | ⟨-, rfl⟩ | ⟨-, rfl⟩ := closingFor?_cases hclose <;> decide
  | operator ho _ =>
    subst hr
    have hall : ∀ o ∈ operators, ∀ c ∈ o.1.toList.getLast?, endsOperand c = false := by decide
    rw [List.append_nil] at hc
    rw [hall _ ho c hc] at hc'
    cases hc'
  | word hword _ hzero => exact hw.writeWord_head hword _ hzero
  | props _ hlink =>
    subst hr
    rcases hlink with rfl | rfl <;>
    · obtain rfl := Option.some.inj hc
      cases hc'
  | char _ hblank _ _ => exact ⟨_, rfl, hblank⟩

/-- No token leaves a blank at the front. -/
theorem Token.getLast?_not_blank {out' : List Char} (h : Token names write out t out' r)
    (hw : Trims names write) (ho : ∀ c ∈ out.getLast?, isBlank c = false) :
    ∀ c ∈ out'.getLast?, isBlank c = false := by
  have hpush {u out : List Char} (hu : ∀ c ∈ u.head?, isBlank c = false)
      (ho : ∀ c ∈ out.getLast?, isBlank c = false) :
      ∀ c ∈ (u.reverse ++ out).getLast?, isBlank c = false := by
    intro c hc
    rw [List.getLast?_append, List.getLast?_reverse] at hc
    cases hlast : out.getLast? with
    | none => exact hu c (by simpa [hlast] using hc)
    | some d => exact ho c (by simpa [hlast] using hc)
  have hspace : ∀ c ∈ (space out).getLast?, isBlank c = false := by
    rw [space.eq_def]
    split
    · simp
    · split
      · exact ho
      · rwa [List.getLast?_cons_cons]
  cases h with
  | blank _ => exact hspace
  | literal _ _ => exact hpush (hw.trimmed_literalText _).head ho
  | @group o c inner r hc _ =>
    have hhead : (groupText write (o :: (inner ++ [c]))).head? = some o := by
      rw [groupText.eq_def]
      split
      · rfl
      · rename_i heq
        rw [(List.cons.inj heq).1]
        rfl
      · rename_i heq
        cases heq
    refine hpush (fun d hd => ?_) ho
    obtain rfl := Option.some.inj (hhead.symm.trans hd)
    obtain ⟨rfl, -⟩ | ⟨rfl, -⟩ | ⟨rfl, -⟩ := closingFor?_cases hc <;> decide
  | @operator o r ho' _ =>
    cases hop : o.2 with
    | member => exact hpush (u := ['.']) (by simp; decide) ho
    | negation => exact hpush (u := "not ".toList) (by simp; decide) hspace
    | infixed text =>
      have htext : ∀ o ∈ operators, ∀ text, o.2 = .infixed text →
          ∃ c u, text.toList = c :: u ∧ isBlank c = false := by
        intro o ho
        simp only [operators, List.mem_cons, List.not_mem_nil, or_false] at ho
        rcases ho with rfl | rfl | rfl | rfl | rfl | rfl | rfl | rfl | rfl | rfl | rfl | rfl | rfl <;>
          (rintro text htext; cases htext) <;> exact ⟨_, _, rfl, by decide⟩
      obtain ⟨c, u, hu, hc⟩ := htext o ho' text hop
      have hrest : ∀ c ∈ (if (out.dropWhile isBlank).isEmpty then out.dropWhile isBlank
          else ' ' :: out.dropWhile isBlank).getLast?, isBlank c = false := by
        split
        · rename_i hempty
          simp [List.isEmpty_iff.1 hempty]
        · rename_i hsome
          obtain ⟨w, hw⟩ := List.dropWhile_suffix isBlank (l := out)
          have hne : out.dropWhile isBlank ≠ [] := by simpa using hsome
          rw [← hw, List.getLast?_append_of_ne_nil _ hne] at ho
          obtain ⟨d, v, hd⟩ := List.exists_cons_of_ne_nil hne
          rw [hd] at ho ⊢
          rwa [List.getLast?_cons_cons]
      have := hpush (u := text.toList ++ [' ']) (by simp [hu, hc]) hrest
      simpa [writeOperator] using this
  | @word w r hword _ _ =>
    rw [writeWord]
    split
    · rename_i hmember
      split
      · refine hpush (u := "|length".toList) (by simp; decide) ?_
        cases out with
        | nil => simp
        | cons c out =>
          cases out with
          | nil => simp
          | cons d out => rwa [List.getLast?_cons_cons] at ho
      · exact hpush (edged_of_isIdentifier hword).trimmed.head ho
    · split
      · exact hpush (u := "none".toList) (by simp; decide) ho
      · split
        · exact ho
        · split
          · exact ho
          · split
            · exact hpush (u := contentVariable.toList) (by decide) ho
            · exact hpush (hw.names w hword).trimmed.head ho
  | props _ _ => exact ho
  | char _ hblank _ _ => exact hpush (u := [_]) (by simpa using hblank) ho

/-- Code that ends in an operand is written without blanks at its ends, and not as nothing. -/
theorem trimmed_writeFrom (hw : Trims names write) (h : Sealed [] t) (hend : EndsOperand write t) :
    Trimmed (writeFrom names write 0 [] t).reverse ∧ (writeFrom names write 0 [] t).reverse ≠ [] := by
  have hall (n : Nat) {t out : List Char} (hn : t.length = n) (h : Sealed [] t)
      (hend : EndsOperand write t) (ho : ∀ c ∈ out.getLast?, isBlank c = false) :
      (∃ c ∈ (writeFrom names write 0 out t).head?, isBlank c = false) ∧
        ∀ c ∈ (writeFrom names write 0 out t).getLast?, isBlank c = false := by
    induction n using Nat.strongRecOn generalizing t out with
    | ind n ih =>
      subst hn
      have hne : t ≠ [] := by
        rintro rfl
        obtain ⟨c, hc, -⟩ := hend.last
        cases hc
      obtain ⟨out', r, htoken, hr⟩ := exists_token names write out h hne
      have hself := htoken.writeFrom_eq resting_nil stops_nil
      simp only [List.append_nil] at hself
      rw [hself]
      have ho' := htoken.getLast?_not_blank hw ho
      by_cases hnil : r = []
      · subst hnil
        exact ⟨htoken.head?_not_blank hw hend, ho'⟩
      · exact ih r.length htoken.length_lt rfl hr (hend.suffix htoken.suffix hnil) ho'
  have hnil : ∀ c ∈ ([] : List Char).getLast?, isBlank c = false := by simp
  obtain ⟨⟨c, hc, hblank⟩, hlast⟩ := hall _ rfl h hend hnil
  refine ⟨⟨by simpa using hlast, fun d hd => ?_⟩, fun hnil => ?_⟩
  · rw [List.getLast?_reverse] at hd
    rwa [Option.mem_unique hd hc]
  · rw [List.reverse_eq_nil_iff.1 hnil] at hc
    cases hc

end JsxToJinja.Jinja
