import JsxToJinja.Proofs.Code.Logic

/-! Reading of template expressions: names with members and filters, texts, numbers, comparisons and
logic. From loose to tight the operators are `or`, `and`, `not`, comparisons, and members and
filters. -/
namespace JsxToJinja.Jinja
open JsxToJinja.Text JsxToJinja.Code

inductive Lexeme where
  | name (word : List Char)
  | digits (n : Nat)
  /-- A text in single quotes, as it stands between them. -/
  | quoted (body : List Char)
  | comparison (op : BinaryOp)
  | opening
  | closing
  | dot
  | bar
  | minus
deriving DecidableEq

def isTemplateChar (c : Char) : Bool := c.isAlphanum || c == '_'

/-- Longer signs come before those they start with. -/
def signs : List (String × Lexeme) := [
  ("==", .comparison .eq), ("!=", .comparison .ne), ("<=", .comparison .le),
  (">=", .comparison .ge), ("<", .comparison .lt), (">", .comparison .gt), ("(", .opening),
  (")", .closing), (".", .dot), ("|", .bar), ("-", .minus)]

def signAt? (t : List Char) : Option (Nat × Lexeme) :=
  (signs.find? fun s => startsWith t s.1.toList).map fun s => (s.1.length, s.2)

/-- Lexemes of a text whose first so many characters are already read. -/
def lexFrom : Nat → List Char → Option (List Lexeme)
  | _, [] => some []
  | skip + 1, _ :: t => lexFrom skip t
  | 0, c :: t =>
    let here := c :: t
    if isBlank c then lexFrom 0 t
    else if c.isDigit then
      let ds := here.takeWhile Char.isDigit
      (lexFrom (ds.length - 1) t).map (.digits (Number.digitsValue ds) :: ·)
    else if isTemplateChar c then
      let word := here.takeWhile isTemplateChar
      (lexFrom (word.length - 1) t).map (.name word :: ·)
    else if c == '\x27' then
      match literalClose? here with
      | none => none
      | some n => (lexFrom n t).map (.quoted (slice here 1 n) :: ·)
    else match signAt? here with
      | none => none
      | some (n, s) => (lexFrom (n - 1) t).map (s :: ·)

/-- What comes behind a name. A member behind a filter is a part of the filter's name. -/
inductive Step where
  | member (name : List Char)
  | filter (name : List Char)
deriving DecidableEq

def Step.name : Step → List Char
  | member name => name
  | filter name => name

inductive Formula where
  | access (head : List Char) (steps : List Step)
  | text (body : List Char)
  | int (n : Int)
  | not (a : Formula)
  | binary (op : BinaryOp) (a b : Formula)
  /-- One more comparison behind others, which holds if they hold and it holds of their last
  operand. -/
  | also (chain : Formula) (op : BinaryOp) (b : Formula)
deriving DecidableEq

namespace Formula

abbrev Parser := List Lexeme → Option (Formula × List Lexeme)

def readSteps : List Lexeme → List Step × List Lexeme
  | .dot :: .name w :: ts => (.member w :: (readSteps ts).1, (readSteps ts).2)
  | .bar :: .name w :: ts => (.filter w :: (readSteps ts).1, (readSteps ts).2)
  | ts => ([], ts)

/-- An operand; `group` reads what stands in parentheses. -/
def readOperand (group : Parser) : Parser
  | .name w :: ts => some (.access w (readSteps ts).1, (readSteps ts).2)
  | .digits n :: ts => some (.int n, ts)
  | .minus :: .digits n :: ts => some (.int (-n), ts)
  | .quoted body :: ts => some (.text body, ts)
  | .opening :: ts =>
    match group ts with
    | some (e, .closing :: rest) => some (e, rest)
    | _ => none
  | _ => none

/-- Extends what is read by operands behind joining lexemes, at most so many. -/
def joinFrom (join? : Lexeme → Option (Formula → Formula → Formula)) (next : Parser) :
    Nat → Formula → Parser
  | 0, a, ts => some (a, ts)
  | _ + 1, a, [] => some (a, [])
  | n + 1, a, t :: ts =>
    match join? t with
    | none => some (a, t :: ts)
    | some join =>
      match next ts with
      | none => none
      | some (b, rest) => joinFrom join? next n (join a b) rest

def readJoined (join? : Lexeme → Option (Formula → Formula → Formula)) (next : Parser) : Parser :=
  fun ts => (next ts).bind fun (a, rest) => joinFrom join? next rest.length a rest

def alsoJoin? : Lexeme → Option (Formula → Formula → Formula)
  | .comparison op => some fun chain b => .also chain op b
  | _ => none

def wordJoin? (word : String) (op : BinaryOp) : Lexeme → Option (Formula → Formula → Formula)
  | .name w => if w = word.toList then some (.binary op) else none
  | _ => none

def readComparisons (group : Parser) : Parser := fun ts =>
  match readOperand group ts with
  | some (a, .comparison op :: rest) =>
    (readOperand group rest).bind fun (b, rest) =>
      joinFrom alsoJoin? (readOperand group) rest.length (.binary op a b) rest
  | r => r

def readNegation (inner : Parser) : Parser
  | .name w :: ts =>
    if w = "not".toList then (readNegation inner ts).map fun (e, rest) => (.not e, rest)
    else inner (.name w :: ts)
  | ts => inner ts

def readConjunction (group : Parser) : Parser :=
  readJoined (wordJoin? "and" .and) (readNegation (readComparisons group))

def readDisjunction (group : Parser) : Parser :=
  readJoined (wordJoin? "or" .or) (readConjunction group)

/-- Reads with at most so many parentheses inside each other. -/
def readWithin : Nat → Parser
  | 0 => fun _ => none
  | depth + 1 => readDisjunction (readWithin depth)

def ofLexemes? (ts : List Lexeme) : Option Formula :=
  match readWithin (ts.length + 1) ts with
  | some (e, []) => some e
  | _ => none

def parse? (t : List Char) : Option Formula := (lexFrom 0 t).bind ofLexemes?

end Formula

/-! ### Lexemes of a text -/

section
variable {rest : List Char}

theorem lexFrom_skip (u t : List Char) : lexFrom u.length (u ++ t) = lexFrom 0 t := by
  induction u with
  | nil => rfl
  | cons c u ih =>
    rw [List.length_cons, List.cons_append, lexFrom]
    exact ih

theorem not_blank_of_isTemplateChar {c : Char} (h : isTemplateChar c = true) :
    isBlank c = false := by
  refine not_blank_of_isIdentifierChar ?_
  simp only [isTemplateChar, isIdentifierChar, Bool.or_eq_true] at h ⊢
  exact .inl h

/-- A run of characters of a kind ends where the next one is of another kind. -/
theorem takeWhile_append {f : Char → Bool} {w : List Char} (hw : ∀ c ∈ w, f c = true)
    (hr : ∀ c ∈ rest.head?, f c = false) : (w ++ rest).takeWhile f = w := by
  rw [List.takeWhile_append_of_pos hw]
  cases rest with
  | nil => simp
  | cons c rest => simp [hr c rfl]

/-- In front of the rest a text comes apart into lexemes. -/
def Lexes (s : List Char) (ts : List Lexeme) (rest : List Char) : Prop :=
  lexFrom 0 (s ++ rest) = (lexFrom 0 rest).map (ts ++ ·)

theorem Lexes.append {s s' : List Char} {ts ts' : List Lexeme} (h : Lexes s ts (s' ++ rest))
    (h' : Lexes s' ts' rest) : Lexes (s ++ s') (ts ++ ts') rest := by
  rw [Lexes] at h h' ⊢
  rw [List.append_assoc, h, h', Option.map_map]
  congr 1
  funext us
  simp

theorem lexes_name {w : List Char} (hne : w ≠ []) (hw : ∀ c ∈ w, isTemplateChar c = true)
    (hd : ∀ c ∈ w.head?, c.isDigit = false) (hr : ∀ c ∈ rest.head?, isTemplateChar c = false) :
    Lexes w [.name w] rest := by
  have htake := takeWhile_append hw hr
  cases w with
  | nil => exact absurd rfl hne
  | cons c w =>
    have hc : isTemplateChar c = true := hw c (by simp)
    rw [List.cons_append] at htake
    rw [Lexes, List.cons_append, lexFrom, if_neg (by simp [not_blank_of_isTemplateChar hc]),
      if_neg (by simp [hd c rfl]), if_pos hc, htake]
    exact congrArg (Option.map (.name (c :: w) :: ·)) (lexFrom_skip w rest)

theorem lexes_digits {ds : List Char} (hne : ds ≠ []) (hd : ∀ c ∈ ds, c.isDigit = true)
    (hr : ∀ c ∈ rest.head?, c.isDigit = false) :
    Lexes ds [.digits (Number.digitsValue ds)] rest := by
  have htake := takeWhile_append hd hr
  cases ds with
  | nil => exact absurd rfl hne
  | cons c ds =>
    have hc : c.isDigit = true := hd c (by simp)
    have hblank : isBlank c = false :=
      not_blank_of_isTemplateChar (by simp [isTemplateChar, Char.isAlphanum, hc])
    rw [List.cons_append] at htake
    rw [Lexes, List.cons_append, lexFrom, if_neg (by simp [hblank]), if_pos hc, htake]
    exact congrArg (Option.map (.digits (Number.digitsValue (c :: ds)) :: ·)) (lexFrom_skip ds rest)

theorem lexes_quoted {body : List Char} (hb : LiteralBody '\x27' body) :
    Lexes ('\x27' :: (body ++ ['\x27'])) [.quoted body] rest := by
  have hclose : literalClose? ('\x27' :: (body ++ '\x27' :: rest)) = some (1 + body.length) :=
    literalClose?_body (by decide) hb rest
  have hslice : slice ('\x27' :: (body ++ '\x27' :: rest)) 1 (1 + body.length) = body := by
    rw [slice, Nat.add_comm, List.take_succ_cons, List.take_left, List.drop_one, List.tail_cons]
  have hskip : lexFrom (1 + body.length) (body ++ '\x27' :: rest) = lexFrom 0 rest := by
    have := lexFrom_skip (body ++ ['\x27']) rest
    rwa [List.append_assoc, List.length_append, Nat.add_comm] at this
  rw [Lexes, List.cons_append, List.append_assoc, List.singleton_append, lexFrom,
    if_neg (by decide), if_neg (by decide), if_neg (by decide), if_pos (by decide), hclose]
  simp only [hslice, hskip]
  rfl

def signHeads : List Char := ['=', '!', '<', '>', '(', ')', '.', '|', '-']

theorem lexes_sign {c : Char} {s : List Char} {t : Lexeme} (hc : c ∈ signHeads)
    (h : signAt? (c :: (s ++ rest)) = some (s.length + 1, t)) : Lexes (c :: s) [t] rest := by
  have hall : ∀ d ∈ signHeads, isBlank d = false ∧ d.isDigit = false ∧ isTemplateChar d = false ∧
      (d == '\x27') = false := by decide
  obtain ⟨hblank, hdigit, hchar, hquote⟩ := hall c hc
  rw [Lexes, List.cons_append, lexFrom, if_neg (by simp [hblank]), if_neg (by simp [hdigit]),
    if_neg (by simp [hchar]), if_neg (by simp [hquote]), h]
  exact congrArg (Option.map (t :: ·)) (lexFrom_skip s rest)

theorem lexes_blank : Lexes [' '] [] rest := by
  rw [Lexes, List.cons_append, lexFrom, if_pos (by decide)]
  simp

end

/-! ### What may follow -/

/-- How tightly a lexeme goes on with what stands in front of it. -/
def Lexeme.binds : Lexeme → Nat
  | .dot | .bar => 5
  | .comparison _ => 4
  | .name w => if w = "and".toList then 2 else if w = "or".toList then 1 else 0
  | _ => 0

def Follows (k : Nat) (rest : List Lexeme) : Prop := ∀ t ∈ rest.head?, t.binds < k

theorem Follows.mono {k l : Nat} {rest : List Lexeme} (h : Follows k rest) (hk : k ≤ l) :
    Follows l rest := fun t ht => Nat.lt_of_lt_of_le (h t ht) hk

theorem follows_nil (k : Nat) : Follows k [] := fun t ht => by cases ht

def Step.lexemes : Step → List Lexeme
  | .member w => [.dot, .name w]
  | .filter w => [.bar, .name w]

namespace Formula

variable {group next : Parser} {ts us rest : List Lexeme} {a b : Formula}

theorem readSteps_append (steps : List Step) (hr : Follows 5 rest) :
    readSteps (steps.flatMap Step.lexemes ++ rest) = (steps, rest) := by
  induction steps with
  | nil =>
    rw [List.flatMap_nil, List.nil_append]
    unfold readSteps
    split
    · exact absurd (hr .dot rfl) (by decide)
    · exact absurd (hr .bar rfl) (by decide)
    · rfl
  | cons s steps ih =>
    cases s <;> simp [Step.lexemes, readSteps, ih]

theorem readOperand_access (w : List Char) (steps : List Step) (hr : Follows 5 rest) :
    readOperand group (.name w :: (steps.flatMap Step.lexemes ++ rest)) =
      some (.access w steps, rest) := by
  rw [readOperand, readSteps_append steps hr]

theorem readOperand_group (h : group (ts ++ .closing :: rest) = some (a, .closing :: rest)) :
    readOperand group (.opening :: (ts ++ .closing :: rest)) = some (a, rest) := by
  rw [readOperand, h]

/-- An operand that no comparison follows is read alone. -/
theorem readComparisons_operand (h : readOperand group ts = some (a, rest)) (hr : Follows 4 rest) :
    readComparisons group ts = some (a, rest) := by
  rw [readComparisons, h]
  split
  · rename_i he
    cases he
    exact absurd (hr _ rfl) (by simp [Lexeme.binds])
  · rfl

/-- Reading stops where no joining lexeme stands. -/
theorem joinFrom_stop {join? : Lexeme → Option (Formula → Formula → Formula)}
    (h : ∀ t ∈ rest.head?, join? t = none) (n : Nat) :
    joinFrom join? next n a rest = some (a, rest) := by
  cases n with
  | zero => rfl
  | succ n =>
    cases rest with
    | nil => rfl
    | cons t rest => simp [joinFrom, h t rfl]

/-- Two operands with a comparison between them are read as one. -/
theorem readComparisons_binary {op : BinaryOp}
    (ha : readOperand group ts = some (a, .comparison op :: us)) (hb : readOperand group us = some (b, rest)) (hr : Follows 4 rest) :
    readComparisons group ts = some (.binary op a b, rest) := by
  rw [readComparisons, ha]
  dsimp only
  rw [hb]
  refine joinFrom_stop (fun t ht => ?_) _
  cases t with
  | comparison op => exact absurd (hr _ ht) (by simp [Lexeme.binds])
  | _ => rfl

theorem readNegation_of_ne {inner : Parser} (h : ts.head? ≠ some (.name "not".toList)) :
    readNegation inner ts = inner ts := by
  unfold readNegation
  split
  · rw [if_neg]
    rintro rfl
    exact h rfl
  · rfl

/-- One more operand is joined to what is read. -/
theorem joinFrom_next {join? : Lexeme → Option (Formula → Formula → Formula)}
    {join : Formula → Formula → Formula} {t : Lexeme} {n : Nat} (hj : join? t = some join)
    (hb : next us = some (b, rest)) :
    joinFrom join? next (n + 1) a (t :: us) = joinFrom join? next n (join a b) rest := by
  simp [joinFrom, hj, hb]

end Formula

end JsxToJinja.Jinja
