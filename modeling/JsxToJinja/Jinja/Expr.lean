import JsxToJinja.Code.Literal
import JsxToJinja.Code.Ternary
import JsxToJinja.Jinja.Names

/-! Template expressions for code: comparisons, logic, conditionals, template literals and member
access. Other code is copied. -/
namespace JsxToJinja.Jinja
open JsxToJinja.Text JsxToJinja.Code

def contentVariable : String := "_component_context.content"

def escapeQuoted (t : List Char) : List Char :=
  t.flatMap fun c => if c == '\\' || c == '\x27' then ['\\', c] else [c]

def quoteText (t : List Char) : List Char := '\x27' :: escapeQuoted t ++ ['\x27']

def quote (s : String) : String := String.ofList (quoteText s.toList)

theorem quote_toList (s : String) :
    (quote s).toList = '\x27' :: (escapeQuoted s.toList ++ ['\x27']) := by
  simp [quote, quoteText]

abbrev Writer := List Char → List Char

def inParens (t : List Char) : List Char := '(' :: t ++ [')']

def partText (write : Writer) : TemplatePart → List Char
  | .text s => quoteText s.toList
  | .expr code =>
    let t := write code.toList
    if t.contains ' ' then inParens t else t

def templateLiteralWith? (write : Writer) (t : List Char) : Option (List Char) :=
  (templateParts? t).map fun parts =>
    match parts.map (partText write) with
    | [] => "''".toList
    | [one] => one
    | pieces => inParens (" ~ ".toList.intercalate pieces)

/-- What an operator is written as. -/
inductive Operator where
  | infixed (text : String)
  | member
  | negation

/-- Longer operators come before those they start with. -/
def operators : List (String × Operator) := [
  ("===", .infixed "=="), ("!==", .infixed "!="), ("==", .infixed "=="), ("!=", .infixed "!="),
  (">=", .infixed ">="), ("<=", .infixed "<="), ("&&", .infixed "and"), ("||", .infixed "or"),
  ("??", .infixed "or"), ("?.", .member), (">", .infixed ">"), ("<", .infixed "<"),
  ("!", .negation)]

def operatorAt? (t : List Char) : Option (Nat × Operator) :=
  (operators.find? fun o => startsWith t o.1.toList).map fun o => (o.1.length, o.2)

/-- Writing goes backwards: `out` holds what is written, last character first. -/
def space (out : List Char) : List Char :=
  match out with
  | [] => []
  | c :: _ => if c == ' ' || c == '(' || c == '[' then out else ' ' :: out

/-- Writes an operator; an infix one has a blank on either side. -/
def writeOperator (out : List Char) : Operator → List Char
  | .infixed op =>
    let out := out.dropWhile isBlank
    let out := if out.isEmpty then out else ' ' :: out
    ' ' :: (op.toList.reverse ++ out)
  | .member => '.' :: out
  | .negation => "not ".toList.reverse ++ space out

/-- Writes an identifier and says how many characters after it are used up with it. -/
def writeWord (names : NameMap) (out word after : List Char) : List Char × Nat :=
  if out.head? == some '.' then
    if word == "length".toList then ("|length".toList.reverse ++ out.drop 1, 0)
    else (word.reverse ++ out, 0)
  else if word == "undefined".toList || word == "null".toList then ("none".toList.reverse ++ out, 0)
  else if word == "props".toList && startsWith after ['.'] then (out, 1)
  else if word == "props".toList && startsWith after ['?', '.'] then (out, 2)
  else if word == "children".toList then (contentVariable.toList.reverse ++ out, 0)
  else ((names.resolve (String.ofList word)).toList.reverse ++ out, 0)

def literalText (write : Writer) (t : List Char) : List Char :=
  let inner := groupInner t
  match t with
  | '\x60' :: _ => (templateLiteralWith? write t).getD (quoteText inner)
  | '\x27' :: _ => '\x27' :: inner ++ ['\x27']
  | _ => quoteText (replaceAll ['\\', '\x22'] ['\x22'] inner)

/-- A bracketed group with its inside rewritten. Braces are copied. -/
def groupText (write : Writer) (t : List Char) : List Char :=
  match t with
  | '\x7b' :: _ => t
  | c :: _ => c :: write (groupInner t) ++ t.getLast?.toList
  | [] => []

/-- Token by token. A literal or bracket that does not close ends the work: the rest is copied. -/
def writeFrom (names : NameMap) (write : Writer) : Nat → List Char → List Char → List Char
  | _, out, [] => out
  | skip + 1, out, _ :: t => writeFrom names write skip out t
  | 0, out, c :: t =>
    let here := c :: t
    if isBlank c then writeFrom names write 0 (space out) t
    else if isQuote c then
      match literalClose? here with
      | none => here.reverse ++ out
      | some n => writeFrom names write n ((literalText write (here.take (n + 1))).reverse ++ out) t
    else if isOpening c then
      match balancedLength? here with
      | none => here.reverse ++ out
      | some n => writeFrom names write n ((groupText write (here.take (n + 1))).reverse ++ out) t
    else match operatorAt? here with
    | some (n, op) => writeFrom names write (n - 1) (writeOperator out op) t
    | none =>
      if isIdentifierStart c then
        let word := here.takeWhile isIdentifierChar
        let (out, more) := writeWord names out word (here.drop word.length)
        writeFrom names write (word.length - 1 + more) out t
      else writeFrom names write 0 (c :: out) t

/-- A branch of a conditional; a conditional in it gets parentheses. -/
def branchText (write : Writer) (t : List Char) : List Char :=
  if (splitTernary? (stripOuterParens t)).isSome then inParens (write t) else write t

/-- One step: the expression for code in terms of those for its parts. -/
def translateStep (names : NameMap) (write : Writer) (t : List Char) : List Char :=
  let t := stripOuterParens t
  match splitTernary? t with
  | some (condition, yes, no) =>
    branchText write yes ++ " if ".toList ++ write condition ++ " else ".toList ++
      branchText write no
  | none => trim (writeFrom names write 0 [] t).reverse

/-- Follows parts within parts at most so deep. -/
def translateWithin (names : NameMap) : Nat → Writer
  | 0 => id
  | depth + 1 => translateStep names (translateWithin names depth)

/-- Expression for code. Parts are shorter than the whole, so their depth is below its length. -/
def translateText (names : NameMap) (t : List Char) : List Char :=
  translateWithin names (t.length + 1) t

def translate (names : NameMap) (code : String) : String :=
  String.ofList (translateText names code.toList)

def templateLiteral? (names : NameMap) (literal : String) : Option String :=
  (templateLiteralWith? (translateText names) literal.toList).map String.ofList

end JsxToJinja.Jinja
