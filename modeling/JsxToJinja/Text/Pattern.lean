import JsxToJinja.Text.Letters
import JsxToJinja.Text.Slice

/-! Patterns over characters with ordered choice: an earlier alternative wins, a repetition takes
as many or as few characters as its kind says, and a search answers the leftmost match. -/
namespace JsxToJinja.Text

inductive Pattern where
  | empty
  | one (accepts : Char → Bool)
  /-- At least `least` accepted characters, as many as the rest of the pattern allows. -/
  | many (least : Nat) (accepts : Char → Bool)
  /-- At least `least` accepted characters, as few as the rest of the pattern allows. -/
  | few (least : Nat) (accepts : Char → Bool)
  | seq (first second : Pattern)
  | alt (first second : Pattern)
  | opt (body : Pattern)
  | group (number : Nat) (body : Pattern)
  | wordEdge
  | start
  | lineStart
  | finish

namespace Pattern

instance : Append Pattern := ⟨seq⟩

def lit (s : String) : Pattern :=
  s.toList.foldr (fun c rest => seq (one (· == c)) rest) empty

def anyOf (choices : List Pattern) : Pattern :=
  match choices with
  | [] => one fun _ => false
  | [p] => p
  | p :: rest => alt p (anyOf rest)

def blanks : Pattern := many 0 isBlank
def someBlanks : Pattern := many 1 isBlank

/-- An ASCII letter, `_` or `$`, then word characters and `$`. -/
def identifier : Pattern :=
  one (fun c => c.isAlpha || c == '_' || c == '$') ++ many 0 (fun c => isWord c || c == '$')

end Pattern

/-- A place in a text together with the character before it. -/
structure Cursor where
  before : Option Char
  index : Nat
  rest : List Char

namespace Cursor

def ofText (t : List Char) : Cursor := ⟨none, 0, t⟩

def atWordEdge (p : Cursor) : Bool :=
  p.before.any isWord != p.rest.head?.any isWord

end Cursor

/-- Captured spans by group number, the latest first. -/
abbrev Captures := List (Nat × Nat × Nat)

/-- Takes as many accepted characters as lead to a match. -/
def greedy (accepts : Char → Bool) (next : Cursor → Option α) :
    Nat → Option Char → Nat → List Char → Option α
  | 0, before, i, [] => next ⟨before, i, []⟩
  | _ + 1, _, _, [] => none
  | least, before, i, c :: t =>
    let longer := if accepts c then greedy accepts next (least - 1) (some c) (i + 1) t else none
    match longer with
    | some found => some found
    | none => if least = 0 then next ⟨before, i, c :: t⟩ else none

/-- Takes as few accepted characters as lead to a match. -/
def reluctant (accepts : Char → Bool) (next : Cursor → Option α) :
    Nat → Option Char → Nat → List Char → Option α
  | 0, before, i, [] => next ⟨before, i, []⟩
  | _ + 1, _, _, [] => none
  | least, before, i, c :: t =>
    let shorter := if least = 0 then next ⟨before, i, c :: t⟩ else none
    match shorter with
    | some found => some found
    | none => if accepts c then reluctant accepts next (least - 1) (some c) (i + 1) t else none

namespace Pattern

/-- Matches at a place and hands the place after the match to `next`. -/
def run : Pattern → Cursor → Captures → (Cursor → Captures → Option α) → Option α
  | empty, p, caps, next => next p caps
  | one accepts, p, caps, next =>
    match p.rest with
    | c :: t => if accepts c then next ⟨some c, p.index + 1, t⟩ caps else none
    | [] => none
  | many least accepts, p, caps, next =>
    greedy accepts (next · caps) least p.before p.index p.rest
  | few least accepts, p, caps, next =>
    reluctant accepts (next · caps) least p.before p.index p.rest
  | seq first second, p, caps, next => run first p caps fun q caps => run second q caps next
  | alt first second, p, caps, next =>
    match run first p caps next with
    | some found => some found
    | none => run second p caps next
  | opt body, p, caps, next =>
    match run body p caps next with
    | some found => some found
    | none => next p caps
  | group number body, p, caps, next =>
    run body p caps fun q caps => next q ((number, p.index, q.index) :: caps)
  | wordEdge, p, caps, next => if p.atWordEdge then next p caps else none
  | start, p, caps, next => if p.index = 0 then next p caps else none
  | lineStart, p, caps, next => if p.before.all (· == '\n') then next p caps else none
  | finish, p, caps, next => if p.rest.isEmpty then next p caps else none

end Pattern

/-- A matched span and the spans of its groups. -/
structure Match where
  start : Nat
  stop : Nat
  captures : Captures

namespace Match

def span? (m : Match) (number : Nat) : Option (Nat × Nat) :=
  (m.captures.find? (·.1 == number)).map (·.2)

def text? (m : Match) (t : List Char) (number : Nat) : Option (List Char) :=
  (m.span? number).map fun (a, b) => slice t a b

def text (m : Match) (t : List Char) (number : Nat) : List Char := (m.text? t number).getD []

end Match

namespace Pattern

def matchAt? (p : Pattern) (place : Cursor) : Option Match :=
  p.run place [] fun q caps => some ⟨place.index, q.index, caps⟩

/-- Tries a place, then the ones after it. -/
def searchFrom (p : Pattern) : Option Char → Nat → List Char → Option Match
  | before, i, [] => p.matchAt? ⟨before, i, []⟩
  | before, i, c :: t =>
    match p.matchAt? ⟨before, i, c :: t⟩ with
    | some m => some m
    | none => searchFrom p (some c) (i + 1) t

/-- Leftmost match. -/
def find? (p : Pattern) (t : List Char) : Option Match := searchFrom p none 0 t

def test (p : Pattern) (t : List Char) : Bool := (p.find? t).isSome

/-- Matches that do not overlap, from left to right. A match starts at or after `resume`. -/
def collect (p : Pattern) : Nat → Option Char → Nat → List Char → List Match
  | resume, before, i, [] =>
    if resume ≤ i then (p.matchAt? ⟨before, i, []⟩).toList else []
  | resume, before, i, c :: t =>
    if resume ≤ i then
      match p.matchAt? ⟨before, i, c :: t⟩ with
      | some m => m :: collect p (max m.stop (i + 1)) (some c) (i + 1) t
      | none => collect p resume (some c) (i + 1) t
    else collect p resume (some c) (i + 1) t

def findAll (p : Pattern) (t : List Char) : List Match := collect p 0 none 0 t

end Pattern

end JsxToJinja.Text
