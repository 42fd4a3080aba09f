import JsxToJinja.Classes.Forwarded
import JsxToJinja.Classes.Switch
import JsxToJinja.Definition
import JsxToJinja.Jinja.Template
import JsxToJinja.Project.Progress

/-! The root element of a component: its tag, its classes and the base component behind it. -/
namespace JsxToJinja
open JsxToJinja.Text JsxToJinja.Code JsxToJinja.Markup

/-- Everything that is known about the root. -/
structure RootPlan where
  element : Jinja.RootElement
  base : Option BaseComponentRef
  resolution : BaseResolution
  /-- Classes of the base component first, then those found in the code. -/
  classes : Extraction
  /-- Rules from the class expression, from switches, and from properties of a base component. -/
  expressionRules : Nat
  switchRules : Nat
  forwardedRules : Option Nat
  review : List ReviewItem

namespace RootPlan

def baseOf? (library : BaseLibrary) (imports : List Import) (name : String) :
    Option BaseComponentRef :=
  (imports.filter (!·.typeOnly)).findSome? fun i => do
    let component ← i.importedName? name
    if library.isBase i.source component then some ⟨i.source, component⟩ else none

/-- The attribute that code hands on: its name, maybe as a member of the properties. -/
def forwardedName? (code : String) : Option String :=
  let t := trim code.toList
  let name := (dropHead? "props.".toList t).getD t
  if isIdentifier name then some (String.ofList name) else none

/-- Value of a property as far as the code fixes it. A forwarded attribute counts with its actual
default, unless it is boolean. -/
def fixedValue? (attributes : List Attribute) : PropValue → Option Json
  | .literal text => some (.str text)
  | .flag => some (.bool true)
  | .expression code =>
    match stringLiteral? code.toList with
    | some text => some (.str (String.ofList text))
    | none => do
      let name ← forwardedName? code
      let a ← attributes.find? fun a => a.name == name && !a.isBoolean
      a.actualDefault?

/-- Properties that a base component may turn into classes or attributes. -/
def isForBase (name : String) : Bool :=
  name != "className" && name != "key" && name != "ref" && !startsWith name.toList ['o', 'n']

def baseProps (root : Element) (attributes : List Attribute) : Fields :=
  Dict.ofList ((root.props.filter (isForBase ·.name)).filterMap fun p =>
    (fixedValue? attributes p.value).map fun v => (p.name, v))

def forwardedFlag? (attributes : List Attribute) (p : Property) : Option Attribute :=
  match p.value with
  | .expression code => do
    let name ← forwardedName? code
    attributes.find? fun a => a.name == name && a.isBoolean
  | _ => none

/-- Attributes that the base component shows only while a forwarded boolean attribute is set. -/
def conditionalAttributes (library : BaseLibrary) (base : BaseComponentRef) (root : Element)
    (attributes : List Attribute) : List Jinja.ConditionalAttribute :=
  let off := library.resolve base.library base.component []
  root.props.flatMap fun p =>
    match forwardedFlag? attributes p with
    | none => []
    | some a =>
      let on := library.resolve base.library base.component [(p.name, .bool true)]
      (on.attributes.filter fun e => Dict.get? off.attributes e.1 != some e.2).map fun e =>
        ⟨a.name, e.1, e.2⟩

def plain (tag : String) : BaseResolution := { tag }

def unknownRoot (root : Element) (line : Nat) : ReviewItem :=
  ⟨"Root component <" ++ root.name ++ "> is not a known base component", .medium, none, some line,
    some "Add a base mapping or convert the root component first"⟩

/-- The base component behind the root, or a plain element. -/
def resolveRoot (library : BaseLibrary) (base : Option BaseComponentRef) (root : Element)
    (attributes : List Attribute) (line : Nat) : Reviewed BaseResolution :=
  match base with
  | some b => pure (library.resolve b.library b.component (baseProps root attributes))
  | none =>
    if root.isComponent then ⟨plain "div", [unknownRoot root line]⟩ else pure (plain root.name)

def classCode? (root : Element) : Option (List Char) :=
  match root.prop? "className" with
  | some (.expression code) => some code.toList
  | _ => none

def classProperty (root : Element) (attributes : List Attribute) : Extraction :=
  match root.prop? "className" with
  | some (.literal classes) => ({} : Extraction).addBase classes
  | some (.expression code) => ClassExpression.extract attributes code.toList
  | _ => {}

def carriers (root : Element) (s : Switch) : List String :=
  (root.props.filter fun p => match p.value with
    | .expression code => String.ofList (trim code.toList) == s.target
    | _ => false).map (·.name)

def literalAttributes (root : Element) : List (String × String) :=
  root.props.filterMap fun p => match p.value with
    | .literal value =>
      if p.name != "className" && p.name != "key" then some (p.name, value) else none
    | _ => none

def unmappedReview (line : Nat) (resolution : BaseResolution) (e : Extraction) :
    List ReviewItem :=
  (resolution.unmapped.filter (!e.drivingProps.contains ·)).map fun p =>
    ⟨"Unmapped prop: " ++ p, .medium, none, some line, none⟩

def make (library : BaseLibrary) (source : Source) (root : Element) (attributes : List Attribute) :
    RootPlan :=
  let base := if root.isComponent then baseOf? library source.imports root.name else none
  let found := classProperty root attributes
  let resolved := resolveRoot library base root attributes source.renderLine
  let resolution := resolved.value
  let lookup : ClassLookup := match base with
    | some b => library.classesFor b.library b.component
    | none => noBaseClasses
  let switches := Switch.parseAll source.text
  let switchRules := switches.flatMap fun s =>
    s.rules root.props (classCode? root) lookup resolution.classes
  let withSwitches := { found with rules := found.rules ++ switchRules }
  let forwarded := base.map fun _ =>
    Forwarded.extract attributes lookup resolution.classes root.props (switches.flatMap (carriers root))
  let all := ((forwarded.map withSwitches.merge).getD withSwitches).expandTemplates attributes
  let tag : Jinja.RootTag := match source.dynamicTag with
    | some d => if d.variableName == root.name then .dynamic d.expression else .fixed resolution.tag
    | none => .fixed resolution.tag
  let attributesOut :=
    if root.isComponent then resolution.attributes
    else Dict.union resolution.attributes (literalAttributes root)
  { element :=
      { tag
        attributes := attributesOut
        conditional := (base.map (conditionalAttributes library · root attributes)).getD []
        wrappers := resolution.wrapper.toList }
    base
    resolution
    classes := { all with base := appendNew resolution.classes all.base }
    expressionRules := found.rules.length
    switchRules := switchRules.length
    forwardedRules := forwarded.map (·.rules.length)
    review := resolved.review ++ unmappedReview source.renderLine resolution all ++
      resolution.review }

def events (p : RootPlan) : List Event :=
  [.step "🔍 Detecting base components...",
    match p.base with
    | some b => .ok (b.library ++ "/" ++ b.component)
    | none => .info "No base components detected",
    .step "🔍 Extracting CSS class logic from clsx()...",
    .ok ("Found " ++ toString p.expressionRules ++ " clsx mappings"),
    .step "🏗  Resolving base components...",
    .ok ("HTML tag: <" ++ p.resolution.tag ++ ">"),
    .ok ("Base classes: " ++ ", ".intercalate p.resolution.classes),
    .step "🔀 Extracting switch statement logic...",
    .ok ("Found " ++ toString p.switchRules ++ " switch mappings")] ++
  match p.forwardedRules with
  | some n => [.step "📋 Extracting JSX attribute logic...",
      .ok ("Found " ++ toString n ++ " JSX attr mappings")]
  | none => []

end RootPlan

end JsxToJinja
