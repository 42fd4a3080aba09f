import JsxToJinja.Jinja.Template
import JsxToJinja.Project.Failure

/-! Changes to the attributes of a component, kept in a file of their own. -/
namespace JsxToJinja
open Json (Written)

/-- Values given in place or by a name for them. -/
inductive ValueSource where
  | token (reference : String)
  | items (values : List Json)
deriving Repr, BEq

/-- What to change about an attribute that is there. -/
structure AttributeOverride where
  values : Option ValueSource := none
  required : Option Bool := none
  description : Option String := none
  type : Option AttributeType := none
deriving Repr, BEq

/-- An attribute that the code does not declare. -/
structure AttributeAddition where
  type : Option AttributeType := none
  required : Bool := false
  description : Option String := none
  values : Option ValueSource := none
  default : Option Json := none
deriving Repr, BEq

/-- An attribute copied onto an element, added if it is not there. -/
structure PassThroughSpec where
  name : String
  type : Option AttributeType := none
  required : Bool := false
  targetElement : Option String := none
  targetAttribute : Option String := none
  default : Option Json := none
deriving Repr, BEq

structure Customization where
  overrides : Dict AttributeOverride := []
  additions : Dict AttributeAddition := []
  defaults : Fields := []
  aliases : List String := []
  childrenSupport : Bool := false
  passThrough : List PassThroughSpec := []
  notes : List String := []
  /-- Takes the place of the content. -/
  customContent : Option String := none
deriving Repr, BEq

/-- What a customization brings beside its changes to the attributes. -/
structure AppliedCustomization where
  aliases : List String := []
  notes : List String := []
  childrenSupport : Bool := false
  passThrough : List Jinja.PassThrough := []
  customContent : Option String := none
deriving Repr, DecidableEq

def AttributeType.ofWritten? (v : Written) : Option AttributeType := v.choice?.bind ofText?

def ValueSource.ofWritten? : Written → Option ValueSource
  | .str reference => some (.token reference)
  | .arr values => (Written.itemValues? values).map .items
  | _ => none

def optionText : Json → String
  | .str s => s
  | v => v.compact

/-- Named values. -/
inductive Token where
  | static (values : List Json)
  /-- Values that only another program can list. -/
  | reference (source : String)
deriving Repr, BEq

namespace Token

def ofKind? (kind : String) (content : Written) : Option Token :=
  match kind with
  | "static" => do
    let field ← content.record? ["values"] 1
    some (.static (← Written.list? Written.value? (← field "values")))
  | "reference" => do
    let field ← content.record? ["source"] 1
    some (.reference (← (← field "source").str?))
  | _ => none

/-- The kind stands under `type`, or first in an array. All fields are kept until the kind is known,
so none of them may be unread. -/
def ofWritten? (v : Written) : Option Token :=
  if !v.isReadable then none else
    match v with
    | .obj fields =>
      match fields.filter (·.1 == "type") with
      | [(_, .str kind)] => ofKind? kind v
      | _ => none
    | .arr (.str kind :: rest) => ofKind? kind (.arr rest)
    | _ => none

def parseTable? (text : String) : Option (Dict Token) :=
  (Written.parse? text).bind (Written.dict? ofWritten?)

def fileName : String := "_tokens.json"

/-- The tokens of a directory, none if it has no file for them. -/
def load (dir : String) (tree : FileTree) : Except ConvertError (Dict Token) :=
  let path := Path.join dir fileName
  match tree.read? path with
  | none => .ok []
  | some text =>
    match parseTable? text with
    | some table => .ok table
    | none => .error (.customization path none)

def values (dir : String) (table : Dict Token) (name : String) :
    Except ConvertError (List String) :=
  match Dict.get? table name with
  | some (.static values) => .ok (values.map optionText)
  | some (.reference source) =>
    .error (.customization (Path.join dir fileName) (some ("token '" ++ name ++ "' is extracted by '" ++
      source ++ "'; list its values as a static token")))
  | none => .error (.unknownToken name)

end Token

namespace Customization

def overrideOf? (v : Written) : Option AttributeOverride := do
  let field ← v.record? ["values", "required", "description", "type"] 4
  some
    { values := ← Written.optional? ValueSource.ofWritten? (field "values")
      required := ← Written.optional? Written.bool? (field "required")
      description := ← Written.optional? Written.str? (field "description")
      type := ← Written.optional? AttributeType.ofWritten? (field "type") }

def additionOf? (v : Written) : Option AttributeAddition := do
  let field ← v.record? ["type", "required", "description", "values", "default"] 5
  some
    { type := ← Written.optional? AttributeType.ofWritten? (field "type")
      required := ← Written.orDefault false Written.bool? (field "required")
      description := ← Written.optional? Written.str? (field "description")
      values := ← Written.optional? ValueSource.ofWritten? (field "values")
      default := ← Written.optional? Written.value? (field "default") }

def passThroughOf? (v : Written) : Option PassThroughSpec := do
  let field ← v.record?
    ["name", "type", "required", "target_element", "target_attribute", "default"] 6
  some
    { name := ← (← field "name").str?
      type := ← Written.optional? AttributeType.ofWritten? (field "type")
      required := ← Written.orDefault false Written.bool? (field "required")
      targetElement := ← Written.optional? Written.str? (field "target_element")
      targetAttribute := ← Written.optional? Written.str? (field "target_attribute")
      default := ← Written.optional? Written.value? (field "default") }

def notesOf? : Written → Option (List String)
  | .str note => some [note]
  | v => v.strings?

/-- A missing field is empty. -/
def ofWritten? (v : Written) : Option Customization := do
  let field ← v.record? ["attribute_overrides", "attribute_additions", "default_overrides",
    "aliases", "add_children_support", "pass_through_attributes", "notes",
    "custom_content_template"]
  some
    { overrides := ← Written.orDefault [] (Written.dict? overrideOf?) (field "attribute_overrides")
      additions := ← Written.orDefault [] (Written.dict? additionOf?) (field "attribute_additions")
      defaults := ← Written.orDefault [] (Written.dict? Written.value?) (field "default_overrides")
      aliases := ← Written.orDefault [] Written.strings? (field "aliases")
      childrenSupport := ← Written.orDefault false Written.bool? (field "add_children_support")
      passThrough :=
        ← Written.orDefault [] (Written.list? passThroughOf?) (field "pass_through_attributes")
      notes := ← Written.orDefault [] notesOf? (field "notes")
      customContent := ← Written.optional? Written.str? (field "custom_content_template") }

def parse? (text : String) : Option Customization := (Written.parse? text).bind ofWritten?

def path (dir component : String) : String := Path.join dir (component ++ ".json")

def load (dir component : String) (tree : FileTree) :
    Except ConvertError (Option Customization) :=
  let path := path dir component
  match tree.read? path with
  | none => .ok none
  | some text =>
    match parse? text with
    | some c => .ok (some c)
    | none => .error (.customization path none)

def declares (attributes : List Attribute) (name : String) : Bool :=
  attributes.any (·.name == name)

def contentAttribute : Attribute :=
  { Attribute.ofType "content" .string with
    description := some "Content rendered inside the component" }

/-- Adds the attribute for the content where children are supported. -/
def addContent (childrenSupport : Bool) (attributes : List Attribute) : List Attribute :=
  if childrenSupport && !declares attributes "content" then attributes ++ [contentAttribute]
  else attributes

section

variable {m : Type → Type} [Monad m] (lookup : String → m (List String))

def valuesOf : ValueSource → m (List String)
  | .token reference => lookup reference
  | .items values => pure (values.map optionText)

def setValues (a : Attribute) (values : List String) : Attribute :=
  { a with
    enumValues := values
    types := if a.hasType .enum then a.types else .enum :: a.types }

def override (o : AttributeOverride) (a : Attribute) : m Attribute := do
  let a ← match o.values with
    | some source => do pure (setValues a (← valuesOf lookup source))
    | none => pure a
  pure { a with
    types := (o.type.map ([·])).getD a.types
    required := o.required.getD a.required
    description := o.description.or a.description }

def overrideAll (overrides : Dict AttributeOverride) :
    List Attribute → m (List Attribute)
  | [] => pure []
  | a :: rest => do
    let a ← match Dict.get? overrides a.name with
      | some o => override lookup o a
      | none => pure a
    let rest ← overrideAll overrides rest
    pure (a :: rest)

def addition (name : String) (spec : AttributeAddition) : m Attribute := do
  let values ← match spec.values with
    | some source => valuesOf lookup source
    | none => pure []
  pure
    { Attribute.ofType name (spec.type.getD .string) with
      required := spec.required
      description := spec.description
      enumValues := values
      default := spec.default.map .actual }

def addAll : Dict AttributeAddition → List Attribute → m (List Attribute)
  | [], attributes => pure attributes
  | (name, spec) :: rest, attributes =>
    if declares attributes name then addAll rest attributes
    else do addAll rest (attributes ++ [← addition lookup name spec])

end

/-- An actual default for the attribute of a name. -/
def setDefault : List Attribute → String × Json → List Attribute
  | [], _ => []
  | a :: rest, (name, value) =>
    if a.name == name then { a with default := some (.actual value) } :: rest
    else a :: setDefault rest (name, value)

def addPassThrough (attributes : List Attribute) (spec : PassThroughSpec) :
    List Attribute :=
  if declares attributes spec.name then attributes
  else attributes ++ [{ Attribute.ofType spec.name (spec.type.getD .string) with
    required := spec.required
    default := spec.default.map .actual }]

def passThroughOf (spec : PassThroughSpec) : Jinja.PassThrough :=
  ⟨spec.name, spec.targetElement, spec.targetAttribute.getD spec.name⟩

/-- The customized attributes: overrides first, then additions, defaults, the attribute for the
content and the copied ones. `lookup` gives the values that a token stands for. -/
def apply {m : Type → Type} [Monad m] (lookup : String → m (List String)) (c : Customization)
    (attributes : List Attribute) : m (List Attribute × AppliedCustomization) := do
  let attributes ← overrideAll lookup c.overrides attributes
  let attributes ← addAll lookup c.additions attributes
  let attributes := c.defaults.foldl setDefault attributes
  let attributes := addContent c.childrenSupport attributes
  let attributes := c.passThrough.foldl addPassThrough attributes
  pure (attributes, ⟨c.aliases, c.notes, c.childrenSupport, c.passThrough.map passThroughOf,
    c.customContent⟩)

end Customization

end JsxToJinja
