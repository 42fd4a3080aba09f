import JsxToJinja.Markup.Parser

/-! Blanking of embedded elements, so that their text cannot be taken for code. -/
namespace JsxToJinja.Markup
open JsxToJinja.Text JsxToJinja.Code

/-- A `<` opens an element only where an expression may start, as after `(`, `=>` or `return`. -/
def mayOpen (t : List Char) (i : Nat) : Bool :=
  opensTag (t.drop i) &&
    let before := trimEnd (t.take i)
    endsWith before "return".toList ||
      match before.getLast? with
      | none => true
      | some c => "(?:=>&|,\x7b[;".toList.contains c

/-- First element from a position on, outside literals. -/
def elementIn? (t : List Char) (start : Nat) : Option Element :=
  (marks (t.drop start)).findSome? fun m =>
    let i := start + m.index
    if m.char == '<' && mayOpen t i then parseElement? t i else none

/-- Spans of the elements from a position on, outermost ones only. -/
def spansFrom (t : List Char) : Nat → Nat → List (Nat × Nat)
  | 0, _ => []
  | fuel + 1, start =>
    match elementIn? t start with
    | some e => (e.start, e.stop) :: spansFrom t fuel e.stop
    | none => []

/-- Spans of the outermost elements outside literals, from left to right. The search starts afresh
after each element. -/
def elementSpans (t : List Char) : List (Nat × Nat) := spansFrom t (t.length + 1) 0

/-- Every character inside an element becomes `width` spaces; line breaks stay. -/
def maskWith (width : Char → Nat) (t : List Char) : List Char :=
  let spans := elementSpans t
  t.zipIdx.flatMap fun (c, i) =>
    if c != '\n' && spans.any (fun s => s.1 ≤ i && i < s.2) then List.replicate (width c) ' '
    else [c]

/-- Positions of characters stay the same. -/
def mask (t : List Char) : List Char := maskWith (fun _ => 1) t

/-- Byte offsets stay the same. -/
def maskBytes (t : List Char) : List Char := maskWith Char.utf8Size t

end JsxToJinja.Markup
