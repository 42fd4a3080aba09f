import JsxToJinja.Code.Scan
import JsxToJinja.Markup.Element

/-! Reading of elements. Text between tags is taken as it stands, quotes included; attribute values
and braces are delimited as code. -/
namespace JsxToJinja.Markup
open JsxToJinja.Text JsxToJinja.Code

def isNameChar (c : Char) : Bool :=
  c.isAlphanum || c == '-' || c == '_' || c == '.' || c == ':' || c == '$'

def isTagStart (c : Char) : Bool := c.isAlpha || c == '>'

def opensTag : List Char → Bool
  | '<' :: c :: _ => isTagStart c
  | _ => false

structure OpeningTag where
  name : String
  props : List Property
  spreads : List String
  selfClosing : Bool

/-- A brace group at the front: its trimmed inside and the text after it. -/
def braces? (t : List Char) : Option (List Char × List Char) :=
  (balancedLength? t).map fun n => (trim (slice t 1 n), t.drop (n + 1))

def propValue? (t : List Char) : Option (PropValue × List Char) :=
  match t with
  | [] => none
  | c :: r =>
    if c == '\x22' || c == '\x27' then
      (find? [c] r).map fun i => (.literal (String.ofList (r.take i)), r.drop (i + 1))
    else if c == '\x7b' then
      (braces? t).map fun (code, rest) => (.expression (String.ofList code), rest)
    else none

/-- The inside of an opening tag after its name. Properties and spreads come last one first. -/
def tagTail? (name : String) :
    Nat → List Property → List String → List Char → Option (OpeningTag × List Char)
  | 0, _, _, _ => none
  | fuel + 1, props, spreads, t =>
    let t := trimStart t
    let tag (closed : Bool) : OpeningTag := ⟨name, props.reverse, spreads.reverse, closed⟩
    if startsWith t ['/', '>'] then some (tag true, t.drop 2)
    else if startsWith t ['>'] then some (tag false, t.drop 1)
    else if startsWith t ['\x7b'] then do
      let (code, rest) ← braces? t
      let spread := trim (dropRepeated "...".toList code)
      tagTail? name fuel props (String.ofList spread :: spreads) rest
    else
      let key := t.takeWhile isNameChar
      let rest := trimStart (t.dropWhile isNameChar)
      if key.isEmpty then none else
        match rest with
        | '=' :: rest => do
          let (value, rest) ← propValue? (trimStart rest)
          tagTail? name fuel (⟨String.ofList key, value⟩ :: props) spreads rest
        | _ => tagTail? name fuel (⟨String.ofList key, .flag⟩ :: props) spreads rest

def openingTag? : List Char → Option (OpeningTag × List Char)
  | '<' :: t =>
    tagTail? (String.ofList (t.takeWhile isNameChar)) (t.length + 1) [] [] (t.dropWhile isNameChar)
  | _ => none

/-- Adds the text read so far, last character first, if it holds more than blanks. -/
def withText (read : List Char) (nodes : List Node) : List Node :=
  let text := collapse read.reverse
  if text.isEmpty then nodes else .text (String.ofList text) :: nodes

/-- Code that is only a comment. -/
def isRemark (code : List Char) : Bool :=
  startsWith code ['/', '*'] && endsWith code ['*', '/']

mutual

/-- The element that starts at the front of a text, given the position of the front, and the text
after it. -/
def elementAt? : Nat → Nat → List Char → Option (Element × List Char)
  | 0, _, _ => none
  | fuel + 1, pos, t => do
    let (tag, rest) ← openingTag? t
    let after := pos + (t.length - rest.length)
    let element (children : List Node) (stop : Nat) : Element :=
      ⟨tag.name, tag.props, tag.spreads, children, tag.selfClosing, pos, stop⟩
    if tag.selfClosing then some (element [] after, rest)
    else
      let (nodes, stop, rest) ← childrenAt? fuel after [] [] rest
      some (element nodes.reverse stop, rest)

/-- Children up to the closing tag, the last one first, with the position and the text after that
tag. `read` holds text not yet made a node, last character first. Names of closing tags are not
compared. -/
def childrenAt? : Nat → Nat → List Char → List Node → List Char →
    Option (List Node × Nat × List Char)
  | 0, _, _, _, _ => none
  | _ + 1, _, _, _, [] => none
  | fuel + 1, pos, read, nodes, c :: t =>
    let here := c :: t
    let child := if opensTag here then elementAt? fuel pos here else none
    if startsWith here ['<', '/'] then
      (find? ['>'] here).map fun i => (withText read nodes, pos + i + 1, here.drop (i + 1))
    else match child with
      | some (e, rest) => childrenAt? fuel e.stop [] (.element e :: withText read nodes) rest
      | none =>
        if c == '\x7b' then
          match balancedLength? here with
          | none => none
          | some n =>
            let code := trim (slice here 1 n)
            let nodes := withText read nodes
            let nodes :=
              if code.isEmpty || isRemark code then nodes
              else .expression (String.ofList code) :: nodes
            childrenAt? fuel (pos + n + 1) [] nodes (here.drop (n + 1))
        else childrenAt? fuel (pos + 1) (c :: read) nodes t

end

def parseElement? (t : List Char) (start : Nat) : Option Element :=
  let rest := t.drop start
  (elementAt? (rest.length + 2) start rest).map (·.1)

/-- Position of the first opening tag. -/
def firstTag? : List Char → Option Nat
  | [] => none
  | c :: t => if opensTag (c :: t) then some 0 else (firstTag? t).map (· + 1)

/-- The element at the first opening tag. -/
def firstElement? (t : List Char) : Option Element := (firstTag? t).bind (parseElement? t)

end JsxToJinja.Markup
