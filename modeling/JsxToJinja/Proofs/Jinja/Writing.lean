import JsxToJinja.Jinja.Expr
import JsxToJinja.Proofs.Jinja.Precedence

/-! Code as a template expression, piece by piece: what is written for a word, a member path, a
literal, a group and an operator does not depend on what stands around it. -/
namespace JsxToJinja.Jinja
open JsxToJinja.Text JsxToJinja.Code

section
variable {names : NameMap} (write : Writer) (out : List Char) {rest : List Char}

/-- Characters that are used up are passed over. -/
theorem writeFrom_skip (u t : List Char) (n : Nat) :
    writeFrom names write (u.length + n) out (u ++ t) = writeFrom names write n out t := by
  induction u with
  | nil => simp
  | cons c u ih =>
    have hl : (c :: u).length + n = u.length + n + 1 := by simp; omega
    rw [hl, List.cons_append, writeFrom]
    exact ih

def operatorHeads : List Char := ['=', '!', '>', '<', '&', '|', '?']

theorem operatorAt?_eq_none {c : Char} (h : c ∉ operatorHeads) (t : List Char) :
    operatorAt? (c :: t) = none := by
  simp only [operatorHeads, List.mem_cons, List.not_mem_nil, or_false, not_or] at h
  obtain ⟨h1, h2, h3, h4, h5, h6, h7⟩ := h
  simp [operatorAt?, operators, startsWith, Ne.symm h1, Ne.symm h2, Ne.symm h3, Ne.symm h4,
    Ne.symm h5, Ne.symm h6, Ne.symm h7]

def wordOf : BinaryOp → String
  | .or => "or"
  | .and => "and"
  | .eq => "=="
  | .ne => "!="
  | .lt => "<"
  | .gt => ">"
  | .le => "<="
  | .ge => ">="

/-- An operator between two operands is found, also where a shorter one starts like it. -/
theorem operatorAt?_infixed {o w : String} (ho : (o, .infixed w) ∈ operators) {t : List Char}
    (h : t.head? ≠ some '=') : operatorAt? (o.toList ++ t) = some (o.length, .infixed w) := by
  simp only [operators, List.mem_cons, Prod.mk.injEq, Operator.infixed.injEq, reduceCtorEq, and_false,
    false_or, List.not_mem_nil, or_false] at ho
  rcases ho with ⟨rfl, rfl⟩ | ⟨rfl, rfl⟩ | ⟨rfl, rfl⟩ | ⟨rfl, rfl⟩ | ⟨rfl, rfl⟩ | ⟨rfl, rfl⟩ |
    ⟨rfl, rfl⟩ | ⟨rfl, rfl⟩ | ⟨rfl, rfl⟩ | ⟨rfl, rfl⟩ | ⟨rfl, rfl⟩
  all_goals
    cases t with
    | nil => rfl
    | cons c t =>
      have hc : c ≠ '=' := by simpa using h
      simp [operatorAt?, operators, startsWith, Ne.symm hc]

theorem exists_operator (op : BinaryOp) :
    ∃ o : String, op.code = o.toList ∧ (o, .infixed (wordOf op)) ∈ operators := by
  cases op <;> exact ⟨_, rfl, by simp [operators, wordOf]⟩

theorem operatorAt?_bang {t : List Char} (h : t.head? ≠ some '=') :
    operatorAt? ('!' :: t) = some (1, .negation) := by
  cases t with
  | nil => rfl
  | cons c t =>
    have hc : c ≠ '=' := by simpa using h
    simp [operatorAt?, operators, startsWith, Ne.symm hc]
    rfl

/-- A character that means nothing is copied. -/
theorem writeFrom_char {c : Char} (ho : isOrdinary c = true) (hb : isBlank c = false)
    (hc : c ∉ operatorHeads) (hs : isIdentifierStart c = false) (t : List Char) :
    writeFrom names write 0 out (c :: t) = writeFrom names write 0 (c :: out) t := by
  simp only [isOrdinary, Bool.and_eq_true, Bool.not_eq_true'] at ho
  rw [writeFrom, if_neg (by simp [hb]), if_neg (by simp [ho]), if_neg (by simp [ho]),
    operatorAt?_eq_none hc]
  simp [hs]

/-- A word is taken whole, and written once. -/
theorem writeFrom_word {w : List Char} (hw : isIdentifier w = true)
    (hr : ∀ c ∈ rest.head?, isIdentifierChar c = false) :
    writeFrom names write 0 out (w ++ rest) =
      writeFrom names write (writeWord names out w rest).2 (writeWord names out w rest).1 rest := by
  have hchars : ∀ c ∈ w, isIdentifierChar c = true := fun _ hc => isIdentifierChar_of_mem hw hc
  have htake := takeWhile_append hchars hr
  cases w with
  | nil => cases hw
  | cons c w =>
    have hc : isIdentifierChar c = true := hchars c (by simp)
    have ho := isOrdinary_of_isIdentifierChar hc
    simp only [isOrdinary, Bool.and_eq_true, Bool.not_eq_true'] at ho
    have hstart : isIdentifierStart c = true := by
      simp only [isIdentifier, Bool.and_eq_true] at hw
      exact hw.1
    have hop : c ∉ operatorHeads := fun hm => by
      have hall : ∀ d ∈ operatorHeads, isIdentifierChar d = false := by decide
      simp [hall c hm] at hc
    have hdrop : (c :: (w ++ rest)).drop (c :: w).length = rest := by simp
    rw [List.cons_append] at htake ⊢
    rw [writeFrom, if_neg (by simp [not_blank_of_isIdentifierChar hc]), if_neg (by simp [ho]),
      if_neg (by simp [ho]), operatorAt?_eq_none hop, if_pos hstart, htake]
    dsimp only
    rw [hdrop]
    exact writeFrom_skip write _ w rest _

/-- A closed literal is written on its own, whatever stands around it. -/
theorem writeFrom_literal {q : Char} {body : List Char} (hq : isQuote q = true)
    (hb : LiteralBody q body) :
    writeFrom names write 0 out (q :: (body ++ q :: rest)) =
      writeFrom names write 0 ((literalText write (q :: (body ++ [q]))).reverse ++ out) rest := by
  have hclose := literalClose?_body hq hb rest
  have htake : (q :: (body ++ q :: rest)).take (1 + body.length + 1) = q :: (body ++ [q]) := by
    rw [List.take_succ_cons, Nat.add_comm, List.append_cons, List.take_left' (by simp)]
  have hskip (out' : List Char) : writeFrom names write (1 + body.length) out' (body ++ q :: rest) =
      writeFrom names write 0 out' rest := by
    rw [Nat.add_comm, List.append_cons]
    simpa using writeFrom_skip write out' (body ++ [q]) rest 0
  rw [writeFrom, if_neg (by simp [not_blank_of_isQuote hq]), if_pos hq, hclose]
  dsimp only
  rw [htake]
  exact hskip _

/-- A single-quoted text is copied. -/
theorem writeFrom_text {body : List Char} (hb : LiteralBody '\x27' body) :
    writeFrom names write 0 out ('\x27' :: (body ++ '\x27' :: rest)) =
      writeFrom names write 0 (('\x27' :: (body ++ ['\x27'])).reverse ++ out) rest := by
  have htext : literalText write ('\x27' :: (body ++ ['\x27'])) = '\x27' :: (body ++ ['\x27']) := by
    rw [literalText, groupInner_bracket]
    rfl
  rw [writeFrom_literal write out (by decide) hb, htext]

/-- A bracketed group is written on its own, whatever stands around it. -/
theorem writeFrom_bracket {o c : Char} {inner : List Char} (hc : closingFor? o = some c)
    (hi : Sealed [] inner) :
    writeFrom names write 0 out (o :: (inner ++ c :: rest)) =
      writeFrom names write 0 ((groupText write (o :: (inner ++ [c]))).reverse ++ out) rest := by
  have hclose : balancedLength? (o :: (inner ++ c :: rest)) = some (inner.length + 1) :=
    balancedLength?_group hc hi rest
  have htake : (o :: (inner ++ c :: rest)).take (inner.length + 1 + 1) = o :: (inner ++ [c]) := by
    rw [List.take_succ_cons, List.append_cons, List.take_left' (by simp)]
  have hskip (out' : List Char) :
      writeFrom names write (inner.length + 1) out' (inner ++ c :: rest) =
        writeFrom names write 0 out' rest := by
    rw [List.append_cons]
    simpa using writeFrom_skip write out' (inner ++ [c]) rest 0
  have hopen : isBlank o = false ∧ isQuote o = false ∧ isOpening o = true := by
    obtain ⟨rfl, -⟩ | ⟨rfl, -⟩ | ⟨rfl, -⟩ := closingFor?_cases hc <;> decide
  rw [writeFrom, if_neg (by simp [hopen]), if_neg (by simp [hopen]), if_pos hopen.2.2, hclose]
  dsimp only
  rw [htake]
  exact hskip _

/-- Parentheses stay, with what is written for their inside. -/
theorem writeFrom_group {inner : List Char} (hi : Sealed [] inner) :
    writeFrom names write 0 out ('(' :: (inner ++ ')' :: rest)) =
      writeFrom names write 0 ((inParens (write inner)).reverse ++ out) rest := by
  have hgroup : groupText write ('(' :: (inner ++ [')'])) = inParens (write inner) := by
    simp [groupText, groupInner_bracket, inParens, List.getLast?_cons]
  rw [writeFrom_bracket write out (by decide) hi, hgroup]

/-! ### Blanks and operators -/

theorem space_space (out : List Char) : space (space out) = space out := by
  cases out with
  | nil => rfl
  | cons c out =>
    by_cases h : (c == ' ' || c == '(' || c == '[') = true
    · simp only [space, h, if_true]
    · simp [space, h]

/-- Blanks count once or not at all. -/
theorem writeFrom_blank {p : List Char} (hp : Blank p) (t : List Char) :
    ∃ out', writeFrom names write 0 out (p ++ t) = writeFrom names write 0 out' t ∧
      (out' = out ∨ out' = space out) := by
  induction p generalizing out with
  | nil => exact ⟨out, rfl, .inl rfl⟩
  | cons c p ih =>
    obtain ⟨out', he, ho⟩ := ih (space out) fun d hd => hp d (by simp [hd])
    refine ⟨out', ?_, .inr ?_⟩
    · rw [List.cons_append, writeFrom, if_pos (hp c (by simp)), he]
    · rcases ho with rfl | rfl
      · rfl
      · exact space_space out

/-- Nothing is written yet, or a blank came last. -/
def Ready (out : List Char) : Prop := out = [] ∨ out.head? = some ' '

variable {out}

theorem Ready.space_eq (h : Ready out) : space out = out := by
  rcases h with rfl | h
  · rfl
  · cases out with
    | nil => rfl
    | cons c out =>
      obtain rfl : c = ' ' := by simpa using h
      rfl

theorem Ready.writeFrom_blank (h : Ready out) {p : List Char} (hp : Blank p) (t : List Char) :
    writeFrom names write 0 out (p ++ t) = writeFrom names write 0 out t := by
  obtain ⟨out', he, ho⟩ := Jinja.writeFrom_blank write out hp t
  rw [h.space_eq, or_self] at ho
  rw [he, ho]

theorem writeFrom_at {c : Char} {t : List Char} {n : Nat} {op : Operator} (hc : c ∈ operatorHeads)
    (h : operatorAt? (c :: t) = some (n, op)) :
    writeFrom names write 0 out (c :: t) = writeFrom names write (n - 1) (writeOperator out op) t := by
  have hall : ∀ d ∈ operatorHeads, isBlank d = false ∧ isQuote d = false ∧ isOpening d = false := by
    decide
  obtain ⟨hblank, hquote, hopening⟩ := hall c hc
  rw [writeFrom, if_neg (by simp [hblank]), if_neg (by simp [hquote]), if_neg (by simp [hopening]), h]

theorem operator_cons {o : String × Operator} (ho : o ∈ operators) :
    ∃ c u, o.1.toList = c :: u ∧ c ∈ operatorHeads ∧ o.1.length - 1 = u.length := by
  simp only [operators, List.mem_cons, List.not_mem_nil, or_false] at ho
  rcases ho with rfl | rfl | rfl | rfl | rfl | rfl | rfl | rfl | rfl | rfl | rfl | rfl | rfl <;>
    exact ⟨_, _, rfl, by decide, rfl⟩

/-- An operator stands between single blanks, whatever blanks were around it. -/
theorem writeFrom_infixed {o w : String} (hop : (o, .infixed w) ∈ operators) {p q : List Char}
    {d : Char} (hp : Blank p) (hq : Blank q) (hd : isBlank d = false) {t : List Char}
    (ht : (q ++ t).head? ≠ some '=') :
    writeFrom names write 0 (d :: out) (p ++ (o.toList ++ (q ++ t))) =
      writeFrom names write 0 (' ' :: (w.toList.reverse ++ ' ' :: d :: out)) t := by
  obtain ⟨out', he, ho⟩ := writeFrom_blank write (d :: out) hp (o.toList ++ (q ++ t))
  have hspace : space (d :: out) = d :: out ∨ space (d :: out) = ' ' :: d :: out := by
    rw [space]
    split
    · exact .inl rfl
    · exact .inr rfl
  have hdrop : out'.dropWhile isBlank = d :: out := by
    have hself : (d :: out).dropWhile isBlank = d :: out := by simp [hd]
    rcases ho with rfl | rfl
    · exact hself
    · rcases hspace with h | h
      · rw [h, hself]
      · rw [h, List.dropWhile_cons, if_pos (by decide), hself]
  have hwrite : writeOperator out' (.infixed w) = ' ' :: (w.toList.reverse ++ ' ' :: d :: out) := by
    rw [writeOperator, hdrop]
    rfl
  have hready : Ready (' ' :: (w.toList.reverse ++ ' ' :: d :: out)) := .inr rfl
  obtain ⟨c, code, hcode, hc, hlen⟩ := operator_cons hop
  have hat := operatorAt?_infixed hop ht
  rw [hcode, List.cons_append] at hat
  rw [he, ← hready.writeFrom_blank write hq, ← hwrite, hcode, List.cons_append,
    writeFrom_at write hc hat, hlen]
  exact writeFrom_skip write _ code (q ++ t) 0

theorem writeFrom_operator (op : BinaryOp) {p q : List Char} {d : Char} (hp : Blank p)
    (hq : Blank q) (hd : isBlank d = false) {t : List Char} (ht : (q ++ t).head? ≠ some '=') :
    writeFrom names write 0 (d :: out) (p ++ (op.code ++ (q ++ t))) =
      writeFrom names write 0 (' ' :: ((wordOf op).toList.reverse ++ ' ' :: d :: out)) t := by
  obtain ⟨o, hcode, ho⟩ := exists_operator op
  rw [hcode, writeFrom_infixed write ho hp hq hd ht]

/-- A negation is a word in front of its operand. -/
theorem Ready.writeFrom_bang (h : Ready out) {p t : List Char} (hp : Blank p)
    (ht : (p ++ t).head? ≠ some '=') :
    writeFrom names write 0 out ('!' :: (p ++ t)) =
      writeFrom names write 0 ("not ".toList.reverse ++ out) t := by
  have hready : Ready ("not ".toList.reverse ++ out) := .inr rfl
  rw [writeFrom_at write (by decide) (operatorAt?_bang ht), writeOperator, h.space_eq]
  exact hready.writeFrom_blank write hp t

end

end JsxToJinja.Jinja
