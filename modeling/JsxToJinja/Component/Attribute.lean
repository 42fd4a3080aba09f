import JsxToJinja.Json.Basic

/-! Attributes of a component and their default values. -/
namespace JsxToJinja

inductive AttributeType where
  | string
  | number
  | boolean
  | enum
  | function
  | array
  | object
deriving Repr, DecidableEq

namespace AttributeType

def text : AttributeType → String
  | string => "string"
  | number => "number"
  | boolean => "boolean"
  | enum => "enum"
  | function => "function"
  | array => "array"
  | object => "object"

def ofText? : String → Option AttributeType
  | "string" => some string
  | "number" => some number
  | "boolean" => some boolean
  | "enum" => some enum
  | "function" => some function
  | "array" => some array
  | "object" => some object
  | _ => none

end AttributeType

/-- An actual default is what the component renders with; an example only shows how it looks. -/
inductive DefaultValue where
  | actual (value : Json)
  | example (value : Json)
deriving Repr, BEq

structure Attribute where
  name : String
  /-- In order, each once. -/
  types : List AttributeType
  required : Bool := false
  enumValues : List String := []
  description : Option String := none
  default : Option DefaultValue := none
  /-- Type name of the items of an array. -/
  itemType : Option String := none
deriving Repr, BEq

namespace Attribute

def ofType (name : String) (type : AttributeType) : Attribute := { name, types := [type] }

def hasType (a : Attribute) (type : AttributeType) : Bool := a.types.contains type

def isFunction (a : Attribute) : Bool := a.hasType .function

def isBoolean (a : Attribute) : Bool := a.hasType .boolean

def isArray (a : Attribute) : Bool := a.hasType .array

/-- `enum` wins, then the first declared type. -/
def primaryType (a : Attribute) : AttributeType :=
  if !a.enumValues.isEmpty || a.hasType .enum then .enum
  else (a.types.find? (· != .enum)).getD .string

def actualDefault? (a : Attribute) : Option Json :=
  match a.default with
  | some (.actual v) => some v
  | _ => none

def exampleValue? (a : Attribute) : Option Json :=
  match a.default with
  | some (.example v) => some v
  | _ => none

def find? (attributes : List Attribute) (name : String) : Option Attribute :=
  attributes.find? (·.name == name)

def defaultJson : DefaultValue → Json
  | .actual v => .object [("source", .str "actual"), ("value", v)]
  | .example v => .object [("source", .str "example"), ("value", v)]

def toJson (a : Attribute) : Json :=
  .object ([("name", .str a.name), ("types", .strings (a.types.map (·.text))),
      ("required", .bool a.required)] ++
    (if a.enumValues.isEmpty then [] else [("enum_values", Json.strings a.enumValues)]) ++
    (a.description.map fun d => ("description", Json.str d)).toList ++
    (a.default.map fun d => ("default", defaultJson d)).toList ++
    (a.itemType.map fun t => ("item_type", Json.str t)).toList)

def defaultOf? (v : Json) : Option DefaultValue := do
  let value := (v.get? "value").getD .null
  match ← (← v.get? "source").str? with
  | "actual" => some (.actual value)
  | "example" => some (.example value)
  | _ => none

/-- Reads an attribute; what is missing or of another kind counts as absent. -/
def ofJson (v : Json) : Attribute :=
  let texts (key : String) : List String :=
    (((v.get? key).bind Json.arr?).getD []).filterMap Json.str?
  { name := ((v.get? "name").bind Json.str?).getD ""
    types := (texts "types").filterMap AttributeType.ofText?
    required := ((v.get? "required").bind Json.bool?).getD false
    enumValues := texts "enum_values"
    description := (v.get? "description").bind Json.str?
    default := (v.get? "default").bind defaultOf?
    itemType := (v.get? "item_type").bind Json.str? }

end Attribute

/-- Default values apart by where they come from. -/
structure DefaultValues where
  actual : Fields := []
  examples : Fields := []
deriving Repr, BEq

namespace DefaultValues

def isEmpty (d : DefaultValues) : Bool := d.actual.isEmpty && d.examples.isEmpty

/-- Records each value on the attribute of its name. Actual defaults win over examples. -/
def applyTo (d : DefaultValues) (attributes : List Attribute) : List Attribute :=
  attributes.map fun a =>
    match Dict.get? d.actual a.name with
    | some v => { a with default := some (.actual v) }
    | none =>
      match Dict.get? d.examples a.name with
      | some v => { a with default := some (.example v) }
      | none => a

end DefaultValues

end JsxToJinja
