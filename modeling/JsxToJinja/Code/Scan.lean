import JsxToJinja.Text.Slice

/-! Scanning of code text. A mark is a character outside string literals together with the nesting
depth of brackets at it. None of the functions fails: a malformed text has no answer or an empty one. -/
namespace JsxToJinja.Code
open JsxToJinja.Text

def isQuote (c : Char) : Bool := c == '\x27' || c == '\x22' || c == '\x60'

def isOpening (c : Char) : Bool := c == '(' || c == '[' || c == '\x7b'

def isClosing (c : Char) : Bool := c == ')' || c == ']' || c == '\x7d'

def closingFor? (c : Char) : Option Char :=
  if c == '(' then some ')' else if c == '[' then some ']'
  else if c == '\x7b' then some '\x7d' else none

/-- Where the scan stands: in code, in a literal, or behind a backslash in a literal. -/
inductive Mode where
  | code
  | quoted (quote : Char)
  | escaped (quote : Char)
deriving Repr, DecidableEq

/-- A character of code, its position, the depth it stands at and the text from it on. A matching
pair of brackets carries the same depth. -/
structure Mark where
  index : Nat
  char : Char
  depth : Nat
  rest : List Char

/-- Characters outside literals; the quotes around a literal belong to the code. A closing bracket
too many leaves the depth at zero. -/
def marksFrom : Mode → Nat → Nat → List Char → List Mark
  | _, _, _, [] => []
  | .escaped q, depth, i, _ :: t => marksFrom (.quoted q) depth (i + 1) t
  | .quoted q, depth, i, c :: t =>
    if c == '\\' then marksFrom (.escaped q) depth (i + 1) t
    else if c == q then ⟨i, c, depth, c :: t⟩ :: marksFrom .code depth (i + 1) t
    else marksFrom (.quoted q) depth (i + 1) t
  | .code, depth, i, c :: t =>
    if isQuote c then ⟨i, c, depth, c :: t⟩ :: marksFrom (.quoted c) depth (i + 1) t
    else if isOpening c then ⟨i, c, depth, c :: t⟩ :: marksFrom .code (depth + 1) (i + 1) t
    else if isClosing c then ⟨i, c, depth - 1, c :: t⟩ :: marksFrom .code (depth - 1) (i + 1) t
    else ⟨i, c, depth, c :: t⟩ :: marksFrom .code depth (i + 1) t

def marks (t : List Char) : List Mark := marksFrom .code 0 0 t

/-- The mark lies outside brackets and starts an occurrence of `needle`. -/
def Mark.starts (m : Mark) (needle : List Char) : Bool :=
  m.depth == 0 && !isQuote m.char && startsWith m.rest needle

/-- Pieces from `start` on, cut where a mark starts the separator. -/
def cutAt (t sep : List Char) : List Mark → Nat → List (List Char)
  | [], start => [t.drop start]
  | m :: ms, start =>
    if start ≤ m.index && m.starts sep then
      slice t start m.index :: cutAt t sep ms (m.index + sep.length)
    else cutAt t sep ms start

/-- Pieces between the occurrences of `sep` outside brackets and literals. Pieces are trimmed and
empty ones dropped. -/
def splitTopLevel (t sep : List Char) : List (List Char) :=
  let pieces := if sep.isEmpty then [t] else cutAt t sep (marks t) 0
  (pieces.map trim).filter (!·.isEmpty)

/-- Number of characters from an opening bracket to the one that closes it, both counted out. -/
def balancedLength? : List Char → Option Nat
  | [] => none
  | c :: t => do
    let close ← closingFor? c
    let m ← (marks (c :: t)).find? fun m => 0 < m.index && m.depth == 0 && m.char == close
    some m.index

/-- Position of the bracket that closes the one at `start`. -/
def balancedEnd? (t : List Char) (start : Nat) : Option Nat :=
  (balancedLength? (t.drop start)).map (start + ·)

/-- The text from the bracket at `start` through its match. -/
def balanced? (t : List Char) (start : Nat) : Option (List Char) :=
  (balancedEnd? t start).map fun stop => slice t start (stop + 1)

def balancedInner? (t : List Char) (start : Nat) : Option (List Char) :=
  (balancedEnd? t start).map fun stop => slice t (start + 1) stop

/-- First occurrence of `needle` outside brackets and literals. -/
def findTopLevel? (t needle : List Char) : Option Nat :=
  if needle.isEmpty then none else ((marks t).find? (·.starts needle)).map (·.index)

/-- Last occurrence of `needle` outside brackets and literals. -/
def findLastTopLevel? (t needle : List Char) : Option Nat :=
  if needle.isEmpty then none else ((marks t).reverse.find? (·.starts needle)).map (·.index)

def containsTopLevel (t needle : List Char) : Bool := (findTopLevel? t needle).isSome

/-- The whole text is one bracketed group that starts with `opening`. -/
def isGroup (opening : Char) (t : List Char) : Bool :=
  t.head? == some opening && balancedLength? t == some (t.length - 1)

/-- A group without its brackets. -/
def groupInner (t : List Char) : List Char := (t.drop 1).dropLast

/-- Removes at most so many pairs of parentheses. -/
def stripParens : Nat → List Char → List Char
  | 0, t => t
  | fuel + 1, t => if isGroup '(' t then stripParens fuel (trim (groupInner t)) else t

/-- Removes parentheses around the whole expression, as many as there are. -/
def stripOuterParens (t : List Char) : List Char := stripParens t.length (trim t)

/-- Line of a position, counted from one. -/
def lineOf (t : List Char) (position : Nat) : Nat := (t.take position).count '\n' + 1

/-- Line of a byte offset, counted from one. Offsets past the end count as the end. -/
def lineAtByte : List Char → Nat → Nat
  | [], _ => 1
  | c :: t, n =>
    if n = 0 then 1
    else (if c == '\n' then 1 else 0) + lineAtByte t (n - c.utf8Size)

end JsxToJinja.Code
