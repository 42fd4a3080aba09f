import JsxToJinja.Code.Scan

/-! Conditional expressions `condition ? consequent : alternate`. -/
namespace JsxToJinja.Code
open JsxToJinja.Text

/-- A question mark that is no part of `?.` or `??`, given the character before it and the text from
it on. -/
def isTernaryQuestion (before : Option Char) (rest : List Char) : Bool :=
  before != some '?' &&
    match rest with
    | _ :: '.' :: _ => false
    | _ :: '?' :: _ => false
    | _ => true

/-- The mark is the question mark of a conditional. -/
def questionAt (t : List Char) (m : Mark) : Bool :=
  m.depth == 0 && m.char == '?' &&
    isTernaryQuestion (if m.index = 0 then none else t[m.index - 1]?) m.rest

def findTernaryQuestion? (t : List Char) : Option Nat :=
  ((marks t).find? (questionAt t)).map (·.index)

def separatorFrom (t : List Char) : Nat → List Mark → Option Nat
  | _, [] => none
  | nested, m :: ms =>
    if questionAt t m then separatorFrom t (nested + 1) ms
    else if m.depth == 0 && m.char == ':' then
      match nested with
      | 0 => some m.index
      | n + 1 => separatorFrom t n ms
    else separatorFrom t nested ms

/-- Position of the `:` between the branches. A conditional inside the consequent takes its own colon
first. -/
def findTernarySeparator? (t : List Char) : Option Nat := do
  let question ← findTernaryQuestion? t
  separatorFrom t 0 ((marks t).filter (question < ·.index))

/-- The three trimmed parts of a conditional, none of them empty. -/
def splitTernary? (t : List Char) : Option (List Char × List Char × List Char) := do
  let question ← findTernaryQuestion? t
  let colon ← findTernarySeparator? t
  let condition := trim (t.take question)
  let consequent := trim (slice t (question + 1) colon)
  let alternate := trim (t.drop (colon + 1))
  if condition.isEmpty || consequent.isEmpty || alternate.isEmpty then none
  else some (condition, consequent, alternate)

end JsxToJinja.Code
