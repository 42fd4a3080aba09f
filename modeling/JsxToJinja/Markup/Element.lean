import JsxToJinja.Json.Basic
import JsxToJinja.Text.Slice

/-! Elements of markup embedded in code. -/
namespace JsxToJinja.Markup
open JsxToJinja.Text

inductive PropValue where
  | literal (text : String)
  | expression (code : String)
  | flag
deriving Repr, DecidableEq

structure Property where
  name : String
  value : PropValue
deriving Repr, DecidableEq

namespace PropValue

def toJson : PropValue → Json
  | literal s => .object [("kind", .str "literal"), ("value", .str s)]
  | expression s => .object [("kind", .str "expression"), ("value", .str s)]
  | flag => .object [("kind", .str "flag")]

def ofJson (v : Json) : PropValue :=
  let text := ((v.get? "value").bind Json.str?).getD ""
  match (v.get? "kind").bind Json.str? with
  | some "literal" => literal text
  | some "expression" => expression text
  | _ => flag

end PropValue

namespace Property

def toJson (p : Property) : Json := .object [("name", .str p.name), ("value", p.value.toJson)]

def ofJson (v : Json) : Property :=
  ⟨((v.get? "name").bind Json.str?).getD "", PropValue.ofJson ((v.get? "value").getD .null)⟩

def lookup? (props : List Property) (name : String) : Option PropValue :=
  (props.find? (·.name == name)).map (·.value)

end Property

mutual

/-- An element with the span of positions it takes in its text. A fragment has an empty name. -/
structure Element where
  name : String
  props : List Property
  spreads : List String
  children : List Node
  selfClosing : Bool
  start : Nat
  stop : Nat

inductive Node where
  | text (text : String)
  | expression (code : String)
  | element (element : Element)

end

/-- Capitalized and dotted names are components, other names are plain elements. -/
def isComponentName (name : String) : Bool :=
  name.toList.head?.any Char.isUpper || contains name.toList ['.']

namespace Element

def prop? (e : Element) (name : String) : Option PropValue := Property.lookup? e.props name

def isFragment (e : Element) : Bool := e.name.isEmpty

def isComponent (e : Element) : Bool := isComponentName e.name

def childElements (e : Element) : List Element :=
  e.children.filterMap fun n => match n with
    | .element c => some c
    | _ => none

end Element

end JsxToJinja.Markup
