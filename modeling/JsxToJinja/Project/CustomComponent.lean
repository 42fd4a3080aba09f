import JsxToJinja.Project.Customization

/-! Components described in a file, without code. -/
namespace JsxToJinja
open Json (Written)
open JsxToJinja.Text

/-- A child that shows while a condition on the attributes holds. -/
structure ConditionalChild where
  condition : String
  tag : String
  classes : List String := []
  /-- Text, or the name of an attribute in braces. -/
  content : Option String := none
deriving Repr, DecidableEq

structure AttributeSpec where
  type : Option AttributeType := none
  required : Bool := false
  description : Option String := none
  values : List String := []
  default : Option Json := none
deriving Repr, BEq

structure CustomComponent where
  name : Option String := none
  tag : String
  classes : List String := []
  /-- Outermost first. -/
  wrappers : List Wrapper := []
  children : List ConditionalChild := []
  childrenSupport : Bool := false
  specs : Dict AttributeSpec := []
  aliases : List String := []
deriving Repr, BEq

namespace CustomComponent

/-- A wrapper and those around it, outermost first. -/
def wrappersOf? : Nat → Written → Option (List Wrapper)
  | 0, _ => none
  | depth + 1, v => do
    let field ← v.record? ["html_tag", "css_classes", "wrapper"] 3
    let tag ← (← field "html_tag").str?
    let classes ← Written.orDefault [] Written.strings? (field "css_classes")
    let outer ← Written.optional? (wrappersOf? depth) (field "wrapper")
    some (outer.getD [] ++ [⟨tag, classes⟩])

def childOf? (v : Written) : Option ConditionalChild := do
  let field ← v.record? ["condition", "html_tag", "css_classes", "content"]
  some
    { condition := ← (← field "condition").str?
      tag := ← (← field "html_tag").str?
      classes := ← Written.orDefault [] Written.strings? (field "css_classes")
      content := ← Written.optional? Written.str? (field "content") }

def specOf? (v : Written) : Option AttributeSpec := do
  let field ← v.record? ["type", "required", "description", "values", "default"] 5
  some
    { type := ← Written.optional? AttributeType.ofWritten? (field "type")
      required := ← Written.orDefault false Written.bool? (field "required")
      description := ← Written.optional? Written.str? (field "description")
      values := ← Written.orDefault [] Written.strings? (field "values")
      default := ← Written.optional? Written.value? (field "default") }

/-- JSON text is never nested deeper than the wrappers that are read. -/
def ofWritten? (v : Written) : Option CustomComponent := do
  let field ← v.record? ["name", "html_tag", "css_classes", "wrapper", "conditional_children",
    "add_children_support", "attribute_additions", "aliases"] 4
  some
    { name := ← Written.optional? Written.str? (field "name")
      tag := ← (← field "html_tag").str?
      classes := ← Written.orDefault [] Written.strings? (field "css_classes")
      wrappers := (← Written.optional? (wrappersOf? Json.maxDepth) (field "wrapper")).getD []
      children := ← Written.orDefault [] (Written.list? childOf?) (field "conditional_children")
      childrenSupport := ← Written.orDefault false Written.bool? (field "add_children_support")
      specs := ← Written.orDefault [] (Written.dict? specOf?) (field "attribute_additions")
      aliases := ← Written.orDefault [] Written.strings? (field "aliases") }

def parse (text path : String) : Except ConvertError CustomComponent :=
  match (Written.parse? text).bind ofWritten? with
  | some c => .ok c
  | none => .error (.customization path none)

def attributeOf (entry : String × AttributeSpec) : Attribute :=
  let spec := entry.2
  let type := spec.type.getD (if spec.values.isEmpty then .string else .enum)
  { Attribute.ofType entry.1 type with
    required := spec.required
    description := spec.description
    enumValues := spec.values
    default := spec.default.map .actual }

def attributes (c : CustomComponent) : List Attribute :=
  Customization.addContent c.childrenSupport (c.specs.map attributeOf)

def childContent (text : String) : Content :=
  let t := trim text.toList
  match (dropHead? ['\x7b'] t).bind (dropTail? ['\x7d']) with
  | some name => .reference (String.ofList (trim name)) none
  | none => .literal (String.ofList t)

def childElement (child : ConditionalChild) : Content :=
  let props : List Markup.Property :=
    if child.classes.isEmpty then []
    else [⟨"className", .literal (" ".intercalate child.classes)⟩]
  .conditional child.condition
    [.element ⟨child.tag, props, []⟩ (child.content.map childContent).toList]

/-- The children in order, then those that a user of the component gives. -/
def content (c : CustomComponent) : List Content :=
  c.children.map childElement ++
    (if c.childrenSupport then [Content.reference "children" none] else [])

def templateInput (c : CustomComponent) (name sourceFile : String) : Jinja.TemplateInput :=
  { name
    sourceFile
    sourceLine := 1
    attributes := c.attributes
    root := { tag := .fixed c.tag, wrappers := c.wrappers }
    classes := ({} : Jinja.ClassList).addBase c.classes
    content := c.content }

end CustomComponent

end JsxToJinja
