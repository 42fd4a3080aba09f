import JsxToJinja.Base.Mapping
import JsxToJinja.Classes.Expression

/-! Detection of what a component renders from the compiled text of its library. -/
namespace JsxToJinja
open JsxToJinja.Text JsxToJinja.Code

def Json.isTruthy : Json → Bool
  | .null => false
  | .bool b => b
  | .num (.int n) => n != 0
  | .num (.double d) => d.magnitude != 0
  | .str s => !s.isEmpty
  | _ => true

structure DetectedElement where
  tag : String
  /-- Classes that are always there. -/
  classes : List String := []
  /-- Classes that depend on the component's own properties. -/
  conditional : List ClassRule := []
  attributes : Dict String := []
deriving Repr, BEq

/-- The elements that a component renders, outermost first, at least the primary one. -/
structure Detected where
  name : String
  primary : DetectedElement
  before : List DetectedElement
  after : List DetectedElement
deriving Repr, BEq

def isGeneric (tag : String) : Bool := tag == "div" || tag == "span"

namespace Detected

def elements (d : Detected) : List DetectedElement := d.before ++ d.primary :: d.after

/-- The outermost element when it is a generic container around a primary element of another tag. -/
def wrapper? (d : Detected) : Option DetectedElement :=
  d.before.head?.bind fun outer =>
    if isGeneric outer.tag && outer.tag != d.primary.tag then some outer else none

def addFor (prop : String) (value : Json) (classes : List String) (r : ClassRule) :
    List String :=
  let key := literalKey value
  let addIf (applies : Bool) : List String :=
    if applies && !classes.contains r.cssClass then classes ++ [r.cssClass] else classes
  if r.prop != prop then classes else
    match r.trigger with
    | .truthy => addIf value.isTruthy
    | .falsy => addIf (!value.isTruthy)
    | .equals expected => addIf (key == literalKey expected)
    | .template _ excluded none =>
      if value.isTruthy && !excluded.contains key then
        let hole := "$\x7b".toList ++ prop.toList ++ ['\x7d']
        classes ++ [String.ofList (replaceAll hole key.toList r.cssClass.toList)]
      else classes
    | _ => classes

def classesFor (d : Detected) (prop : String) (value : Json) : List String :=
  d.primary.conditional.foldl (addFor prop value) d.primary.classes

def opening (name : String) : Pattern :=
  .lit "var " ++ .lit name ++ .blanks ++ .lit "=" ++ .blanks ++
    .opt (.lit "/*" ++ .few 0 (· != '\n') ++ .lit "*/" ++ .blanks) ++
    .alt (.opt (.many 1 isWord ++ .lit ".") ++ .lit "forwardRef") (.lit "function")

/-- What ends a definition: a note of its display name or the next component. -/
def closing (name : String) : Pattern :=
  .alt (.lit name ++ .lit ".displayName")
    (.lineStart ++ .blanks ++ .lit "var " ++ .one fun c => 'A' ≤ c && c ≤ 'Z')

/-- Number of characters that make up at least so many bytes, or all. -/
def covering : List Char → Nat → Nat
  | [], _ => 0
  | c :: t, n => if n = 0 then 0 else 1 + covering t (n - c.utf8Size)

/-- Text of a component's definition. Its end is looked for from 100 bytes on; without one the
definition takes 2000 bytes. -/
def definition? (dist : List Char) (name : String) : Option (List Char) := do
  let m ← (opening name).find? dist
  let rest := dist.drop m.start
  let skip := covering rest 100
  match (closing name).find? (rest.drop skip) with
  | some e => some (rest.take (skip + e.start))
  | none => some (rest.take (covering rest 2000))

def call : Pattern :=
  .wordEdge ++ .lit "jsx" ++ .opt (.lit "s") ++ .lit "(" ++ .blanks ++ .one (· == '\x22') ++
    .group 1 (.one (fun c => 'a' ≤ c && c ≤ 'z') ++ .many 0 fun c => isWord c || c == '-') ++
    .one (· == '\x22') ++ .blanks ++ .lit "," ++ .blanks

/-- Objects that hold something, outermost ones only, from a position on. -/
def objectsFrom (t : List Char) : Nat → List Mark → List (List Char)
  | _, [] => []
  | resume, m :: ms =>
    if m.index < resume || m.char != '\x7b' then objectsFrom t resume ms else
      match balanced? t m.index with
      | some object =>
        if 2 < object.length then object :: objectsFrom t (m.index + object.length) ms
        else objectsFrom t (m.index + object.length) ms
      | none => objectsFrom t resume ms

/-- Of the objects that are spread into the properties the last one that sets the classes, else the
last one. Empty objects do not count. -/
def spreadProps? (t : List Char) : Option (List Char) := do
  let start ← find? ['('] t
  let inner ← balancedInner? t start
  let objects := objectsFrom inner 0 (marks inner)
  (objects.reverse.find? fun o => contains o "className".toList).or objects.getLast?

def addProperty (e : DetectedElement) (entry : List Char) : DetectedElement :=
  if startsWith entry "...".toList then e else
    match findTopLevel? entry [':'] with
    | none => e
    | some colon =>
      let raw := trim (entry.take colon)
      let key := String.ofList ((stringLiteral? raw).getD raw)
      let value := trim (entry.drop (colon + 1))
      if key == "className" then
        let found := ClassExpression.extract [] value
        { e with classes := found.base, conditional := found.rules }
      else if ["children", "ref", "key"].contains key then e
      else match stringLiteral? value with
        | some text => { e with attributes := Dict.insert key (String.ofList text) e.attributes }
        | none => e

/-- Elements that a definition renders, in the order of their calls. -/
def elementsOf (t : List Char) : List DetectedElement :=
  (call.findAll t).filterMap fun m =>
    let rest := t.drop m.stop
    let props :=
      if startsWith rest "_objectSpread".toList then spreadProps? rest
      else if startsWith rest ['\x7b'] then balanced? rest 0
      else none
    props.map fun object =>
      (splitTopLevel (groupInner object) [',']).foldl addProperty
        { tag := String.ofList (m.text t 1) }

/-- The innermost element that is no generic container is primary, else the innermost. -/
def ofElements (name : String) (elements : List DetectedElement) : Option Detected :=
  let inner := elements.reverse
  let after := inner.takeWhile fun e => isGeneric e.tag
  match inner.dropWhile fun e => isGeneric e.tag with
  | primary :: before => some ⟨name, primary, before.reverse, after.reverse⟩
  | [] =>
    match inner with
    | primary :: before => some ⟨name, primary, before.reverse, []⟩
    | [] => none

def ofDistribution? (dist : List Char) (name : String) : Option Detected :=
  (definition? dist name).bind fun t => ofElements name (elementsOf t)

end Detected

end JsxToJinja
