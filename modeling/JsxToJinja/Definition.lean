import JsxToJinja.Component.ArrayShape
import JsxToJinja.Digest
import JsxToJinja.Json.Printer

/-! The definition file written beside a template. -/
namespace JsxToJinja
open Json (Written)

structure BaseComponentRef where
  library : String
  component : String
deriving Repr, DecidableEq

structure NestedEntry where
  name : String
  className : String
  tagName : String
  sourcePath : String
  interface : Option String := none
  props : List String := []
deriving Repr, DecidableEq

structure AttributeEntry where
  name : String
  type : String
  required : Bool
  description : String
  enumValues : Option (List String) := none
  /-- What an attribute that is not given stands for. -/
  default : Option Json := none
  isExample : Bool := false
  exampleValue : Option Json := none
  itemType : Option String := none
  itemProps : Option (List String) := none
  mapsToComponent : Option String := none
  componentTag : Option String := none
deriving Repr, BEq

structure Definition where
  name : String
  sourceFile : String
  convertedAt : String
  conversionHash : String
  baseComponents : List BaseComponentRef := []
  nestedComponents : List NestedEntry := []
  attributes : List AttributeEntry := []
  review : List ReviewItem := []
  exampleValues : Fields := []
deriving Repr, BEq

/-- What a definition is made from. -/
structure DefinitionInput where
  sourceFile : String := ""
  source : String := ""
  attributes : List Attribute := []
  baseComponents : List BaseComponentRef := []
  nested : List NestedComponent := []
  arrayShapes : Dict ArrayShape := []
  review : List ReviewItem := []
  exampleValues : Fields := []

namespace AttributeEntry

/-- Value of an optional attribute without a default. -/
def typeDefault (a : Attribute) : Json :=
  match a.primaryType with
  | .boolean => .bool false
  | .number => .nat 0
  | .enum => .str (a.enumValues.head?.getD "")
  | .array => .arr []
  | _ => .str ""

def ofAttribute (a : Attribute) (shape : Option ArrayShape) : AttributeEntry :=
  { name := a.name
    type := a.primaryType.text
    required := a.required
    description := a.description.getD (a.name ++ " attribute")
    enumValues := if a.enumValues.isEmpty then none else some a.enumValues
    default := match a.actualDefault? with
      | some v => some v
      | none => if a.required then none else some (typeDefault a)
    isExample := a.exampleValue?.isSome
    exampleValue := a.exampleValue?
    itemType := shape.map (·.kind.text)
    itemProps := shape.bind fun s => if s.itemProps.isEmpty then none else some s.itemProps
    mapsToComponent := shape.bind fun s => s.component.map (·.name)
    componentTag := shape.bind fun s => s.component.map (·.tagName) }

def ifSome (key : String) (f : α → Json) (v : Option α) : List (String × Json) :=
  (v.map fun a => (key, f a)).toList

/-- Fields that say nothing are left out. -/
def toJson (e : AttributeEntry) : Json :=
  .obj ([("name", .str e.name), ("type", .str e.type), ("required", .bool e.required),
      ("description", .str e.description)] ++
    ifSome "enum_values" .strings e.enumValues ++ ifSome "default" id e.default ++
    (if e.isExample then [("is_example", Json.bool true)] else []) ++
    ifSome "example_value" id e.exampleValue ++ ifSome "item_type" .str e.itemType ++
    ifSome "item_props" .strings e.itemProps ++ ifSome "maps_to_component" .str e.mapsToComponent ++
    ifSome "component_tag" .str e.componentTag)

def ofWritten? (v : Written) : Option AttributeEntry := do
  let field ← v.record? ["name", "type", "required", "description", "enum_values", "default",
    "is_example", "example_value", "item_type", "item_props", "maps_to_component", "component_tag"]
  some
    { name := ← (← field "name").str?
      type := ← (← field "type").str?
      required := ← (← field "required").bool?
      description := ← (← field "description").str?
      enumValues := ← Written.optional? Written.strings? (field "enum_values")
      default := ← Written.optional? Written.value? (field "default")
      isExample := ← Written.orDefault false Written.bool? (field "is_example")
      exampleValue := ← Written.optional? Written.value? (field "example_value")
      itemType := ← Written.optional? Written.str? (field "item_type")
      itemProps := ← Written.optional? Written.strings? (field "item_props")
      mapsToComponent := ← Written.optional? Written.str? (field "maps_to_component")
      componentTag := ← Written.optional? Written.str? (field "component_tag") }

end AttributeEntry

namespace NestedEntry

def ofNested (n : NestedComponent) : NestedEntry :=
  ⟨n.name, n.className, n.tagName, n.sourcePath, n.interface, n.props⟩

def toJson (n : NestedEntry) : Json :=
  .obj ([("name", .str n.name), ("component_class", .str n.className), ("tag_name", .str n.tagName),
      ("source_path", .str n.sourcePath)] ++
    (n.interface.map fun i => ("interface", Json.str i)).toList ++ [("props", .strings n.props)])

def ofWritten? (v : Written) : Option NestedEntry := do
  let field ← v.record?
    ["name", "component_class", "tag_name", "source_path", "interface", "props"]
  some
    { name := ← (← field "name").str?
      className := ← (← field "component_class").str?
      tagName := ← (← field "tag_name").str?
      sourcePath := ← (← field "source_path").str?
      interface := ← Written.optional? Written.str? (field "interface")
      props := ← Written.orDefault [] Written.strings? (field "props") }

end NestedEntry

/-- Reads an item; its line is a whole number that is not negative. -/
def ReviewItem.ofWritten? (v : Written) : Option ReviewItem := do
  let field ← v.record? ["issue", "severity", "pattern", "source_line", "action"]
  some
    { issue := ← (← field "issue").str?
      severity := ← Severity.ofText? (← (← field "severity").choice?)
      context := ← Written.optional? Written.str? (field "pattern")
      line := ← Written.optional? Written.nat? (field "source_line")
      action := ← Written.optional? Written.str? (field "action") }

namespace Definition

/-- Functions have no entry. -/
def generate (name convertedAt : String) (input : DefinitionInput) : Definition :=
  { name
    sourceFile := input.sourceFile
    convertedAt
    conversionHash := Digest.sha256 input.source
    baseComponents := input.baseComponents
    nestedComponents := input.nested.map .ofNested
    attributes := (input.attributes.filter (!·.isFunction)).map fun a =>
      .ofAttribute a (Dict.get? input.arrayShapes a.name)
    review := input.review
    exampleValues := input.exampleValues }

def attribute? (d : Definition) (name : String) : Option AttributeEntry :=
  d.attributes.find? (·.name == name)

def baseJson (b : BaseComponentRef) : Json :=
  .obj [("library", .str b.library), ("component", .str b.component)]

def baseOf? (v : Written) : Option BaseComponentRef := do
  let field ← v.record? ["library", "component"]
  some ⟨← (← field "library").str?, ← (← field "component").str?⟩

def toJson (d : Definition) : Json :=
  .obj ([("name", .str d.name), ("source_file", .str d.sourceFile),
      ("converted_at", .str d.convertedAt), ("conversion_hash", .str d.conversionHash),
      ("base_components", .arr (d.baseComponents.map baseJson)),
      ("nested_components", .arr (d.nestedComponents.map NestedEntry.toJson)),
      ("attributes", .arr (d.attributes.map AttributeEntry.toJson)),
      ("manual_review_items", .arr (d.review.map ReviewItem.toJson))] ++
    (if d.exampleValues.isEmpty then [] else [("example_values", Json.obj d.exampleValues)]))

def text (d : Definition) : String := d.toJson.pretty ++ "\n"

def ofWritten? (v : Written) : Option Definition := do
  let field ← v.record? ["name", "source_file", "converted_at", "conversion_hash",
    "base_components", "nested_components", "attributes", "manual_review_items", "example_values"]
  some
    { name := ← (← field "name").str?
      sourceFile := ← (← field "source_file").str?
      convertedAt := ← (← field "converted_at").str?
      conversionHash := ← (← field "conversion_hash").str?
      baseComponents := ← Written.orDefault [] (Written.list? baseOf?) (field "base_components")
      nestedComponents :=
        ← Written.orDefault [] (Written.list? NestedEntry.ofWritten?) (field "nested_components")
      attributes :=
        ← Written.orDefault [] (Written.list? AttributeEntry.ofWritten?) (field "attributes")
      review :=
        ← Written.orDefault [] (Written.list? ReviewItem.ofWritten?) (field "manual_review_items")
      exampleValues :=
        ← Written.orDefault [] (Written.dict? Written.value?) (field "example_values") }

/-- Reads a definition file. Keys that are not known are dropped. -/
def parse? (text : String) : Option Definition := (Written.parse? text).bind ofWritten?

end Definition

end JsxToJinja
