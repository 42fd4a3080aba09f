import JsxToJinja.Content.Bindings
import JsxToJinja.Project.CustomComponent
import JsxToJinja.Project.Root
import JsxToJinja.Project.Workspace

/-! Conversion of a component and of the components it renders. -/
namespace JsxToJinja
open JsxToJinja.Text JsxToJinja.Markup

structure ConvertOptions where
  /-- Name of what is made, when it is not the component's own. -/
  outputName : Option String := none
  aliases : List String := []
  convertNested : Bool := true
deriving Repr, DecidableEq

/-- The files that a component is read from. -/
structure SourceFiles where
  component : String
  /-- Declaration to take when the file has several. -/
  hint : String
  template : String
  defaults : Option String
deriving Repr, DecidableEq

namespace Project
open Conversion

/-- A template, its definition and the items for review of both. -/
structure Output where
  template : String
  definition : DefinitionInput
  review : List ReviewItem

def finish (p : Project) (time name : String) (aliases : List String)
    (nested : List NestedOutcome) (out : Output) : Conversion Summary := do
  let layout := p.layout
  let template := layout.template name
  write template out.template
  emit [.ok ("Written to: " ++ layout.relative template)]
  let definition := layout.definition name
  writeOutput layout "📋 Generating component definition..." definition
    (Definition.generate name time { out.definition with review := out.review }).text
  let review := layout.reviewDocument name
  writeOutput layout "📄 Generating review document..." review (Report.document name out.review)
  registerAliases layout name aliases
  let summary : Summary :=
    ⟨name, out.definition.sourceFile, template, definition, review, out.review.length,
      Report.automation out.review.length, aliases, nested⟩
  emit [.finish summary]
  pure summary

def locate (p : Project) (component : String) : Conversion SourceFiles := do
  let dir := Path.join p.layout.components component
  let template := Path.join dir p.config.templateFile
  let defaults := Path.join dir p.config.defaultsFile
  let tree ← files
  if !tree.has template then throw (.missingInput "Template file" template)
  pure ⟨component, component, template, if tree.has defaults then some defaults else none⟩

def componentAt? (p : Project) (path : String) : Option String := do
  match Path.steps (← Path.relativeTo? p.layout.components path) with
  | first :: rest =>
    if rest == Path.steps p.config.templateFile then some first.text else none
  | [] => none

def nestedFiles (p : Project) (tree : FileTree) (n : NestedComponent) (path : String) :
    SourceFiles :=
  let component := componentAt? p path
  let defaults := component.bind fun c =>
    let file := Path.join (Path.join p.layout.components c) p.config.defaultsFile
    if tree.has file then some file else none
  ⟨component.getD n.name, n.className, path, defaults⟩

abbrev Converter := List String → SourceFiles → ConvertOptions → Conversion Summary

/-- The outcome of a step that must not stop the component around it. -/
def attempt (name : String) (step : Conversion Summary) : Conversion NestedOutcome :=
  tryCatch (do
    let _ ← step
    pure (.converted name)) fun e => pure (.failed name e.message)

def ensureNested (p : Project) (convert : Converter) (chain : List String)
    (n : NestedComponent) : Conversion NestedOutcome := do
  match n.resolvedPath with
  | none => pure (.failed n.name ("cannot resolve import " ++ n.sourcePath))
  | some path =>
    let tree ← files
    if tree.has (p.layout.template n.name) then return .existing n.name
    attempt n.name (convert chain (nestedFiles p tree n path) { outputName := some n.name })

def failureReview (n : NestedComponent) (message : String) : ReviewItem :=
  ⟨"Nested component " ++ n.className ++ " could not be converted", .medium, some message, none,
    some "Convert the nested component separately"⟩

/-- A nested component, with an item for review when it fails. -/
def convertOne (p : Project) (convert : Converter) (chain : List String)
    (n : NestedComponent) : Conversion (NestedOutcome × List ReviewItem) := do
  let outcome ← ensureNested p convert chain n
  match outcome with
  | .failed name message =>
    emit [.warn ("Nested component " ++ name ++ " failed: " ++ message)]
    pure (outcome, [failureReview n message])
  | _ => pure (outcome, [])

def convertEach (p : Project) (convert : Converter) (chain : List String) (wanted : Bool) :
    List NestedComponent → Conversion (List NestedOutcome × List ReviewItem)
  | [] => pure ([], [])
  | n :: rest => do
    emit [.ok (n.className ++ " -> <" ++ n.tagName ++ ">")]
    if wanted then
      let (outcome, items) ← convertOne p convert chain n
      let (outcomes, more) ← convertEach p convert chain wanted rest
      pure (outcome :: outcomes, items ++ more)
    else convertEach p convert chain wanted rest

def convertNested (p : Project) (convert : Converter) (chain : List String) (wanted : Bool)
    (nested : List NestedComponent) : Conversion (List NestedOutcome × List ReviewItem) := do
  if !nested.isEmpty then emit [.step "🧩 Detecting nested components..."]
  convertEach p convert chain wanted nested

def readSource (p : Project) (name : String) (f : SourceFiles) :
    Conversion (String × Source) := do
  emit ([.step "📁 Locating source files...", .ok ("TSX: " ++ p.layout.relative f.template)] ++
    (f.defaults.map fun d => Event.ok ("Defaults: " ++ p.layout.relative d)).toList ++
    [.step "📖 Parsing React component..."])
  let text ← read f.template
  let defaults ← match f.defaults with
    | some path => do pure (some (← read path))
    | none => pure none
  let source ← ofExcept ((Source.parse text defaults f.hint).mapError .parse)
  if source.renderBody.isEmpty then throw (.structural name "no JSX render body found")
  let values := source.defaults.actual.length + source.defaults.examples.length
  emit [.ok ("Found " ++ toString source.attributes.length ++ " attributes"),
    .ok ("Found " ++ toString values ++ " default values"),
    .ok ("Found " ++ toString source.imports.length ++ " imports")]
  pure (text, source)

def customize (p : Project) (component : String) (attributes : List Attribute) :
    Conversion (List Attribute × AppliedCustomization) := do
  let dir := p.layout.customizations
  match ← ofExcept (Customization.load dir component (← files)) with
  | none => pure (attributes, {})
  | some c =>
    emit [.step "🎨 Applying customizations..."]
    let (attributes, applied) ← c.apply (tokenValues dir) attributes
    emit (.ok "Customizations applied" :: applied.notes.map .info)
    pure (attributes, applied)

/-- The element that becomes the root. A fragment gives way to its first element. -/
def rootElement (name : String) (source : Source) : Except ConvertError (Reviewed Element) :=
  match source.root? with
  | none => .error (.structural name "render body has no element")
  | some root =>
    if !root.isFragment then .ok (pure root) else
      match root.childElements.head? with
      | none => .error (.structural name "fragment root has no element")
      | some first => .ok ⟨first,
          [⟨"Fragment root: only the first element <" ++ first.name ++ "> is the component root", .low,
            none, some source.renderLine,
            some "Check that sibling elements of the root are rendered as intended"⟩]⟩

def literalProps (u : Usage) : Fields :=
  Dict.ofList (u.props.filterMap fun p => match p.value with
    | .literal text => some (p.name, .str text)
    | .flag => some (p.name, .bool true)
    | .expression code =>
      (Code.stringLiteral? code.toList).map fun t => (p.name, .str (String.ofList t)))

def usage? : Content → Option Usage
  | .component u _ => some u
  | .conditionalComponent _ u _ => some u
  | _ => none

/-- Base components in the content by the name it uses, as the first use of the name has them. -/
def inlineComponents (library : BaseLibrary) (source : Source) (root : Element)
    (content : List Content) : Dict BaseResolution :=
  ((Content.walkAll content).filterMap usage?).foldl (fun acc u =>
    if u.name == root.name || Dict.has acc u.name then acc else
      match RootPlan.baseOf? library source.imports u.name with
      | some b => Dict.insert u.name (library.resolve b.library b.component (literalProps u)) acc
      | none => acc) []

def rendersChildren (content : List Content) : Bool :=
  (Content.walkAll content).any fun c => match c with
    | .reference name _ => name == "children"
    | .fallback chain => chain.contains "children"
    | .call _ argument => contains argument.toList "children".toList
    | _ => false

/-- Items without a line stand for the whole of what is rendered. -/
def atLine (line : Nat) (item : ReviewItem) : ReviewItem :=
  { item with line := item.line.or (some line) }

def contentOf (source : Source) (root : Element) (applied : AppliedCustomization) :
    Reviewed (List Content) :=
  let found := Content.ofRoot root source.preamble
  let content :=
    if applied.childrenSupport && !rendersChildren found.value then
      found.value ++ [.reference "children" none]
    else found.value
  ⟨content, found.review.map (atLine source.renderLine)⟩

/-- What is known of a component when its template is made. -/
structure Parts where
  text : String
  source : Source
  attributes : List Attribute
  applied : AppliedCustomization
  root : Reviewed Element
  nested : List NestedComponent
  /-- Items on nested components that could not be converted. -/
  failures : List ReviewItem

namespace Parts

def plan (x : Parts) (library : BaseLibrary) : RootPlan :=
  .make library x.source x.root.value x.attributes

def content (x : Parts) : Reviewed (List Content) := contentOf x.source x.root.value x.applied

def arrayShapes (x : Parts) : Dict ArrayShape :=
  ArrayShape.analyze (Dict.union x.source.defaults.actual x.source.defaults.examples) x.attributes
    x.source.types x.nested

def input (x : Parts) (library : BaseLibrary) (name sourceFile : String) : Jinja.TemplateInput :=
  let plan := x.plan library
  let content := x.content.value
  { name
    sourceFile
    sourceLine := x.source.renderLine
    attributes := x.attributes
    root := plan.element
    classes := .ofExtraction (.ofAttributes x.attributes) plan.classes
    content
    customContent := x.applied.customContent
    inlineComponents := inlineComponents library x.source x.root.value content
    arrayShapes := x.arrayShapes
    nested := x.nested
    passThrough := x.applied.passThrough }

def output (x : Parts) (library : BaseLibrary) (name sourceFile : String) : Output :=
  let plan := x.plan library
  let made := (x.input library name sourceFile).compile {}
  { template := made.value
    definition :=
      { sourceFile
        source := x.text
        attributes := x.attributes
        baseComponents := plan.base.toList
        nested := x.nested
        arrayShapes := x.arrayShapes
        exampleValues := x.source.defaults.examples }
    review := x.root.review ++ x.failures ++ plan.review ++ plan.classes.review ++
      x.content.review ++ made.review }

def events (x : Parts) (library : BaseLibrary) : List Event :=
  (x.plan library).events ++ [.step "🎨 Building CSS class logic...", .ok "Class builder configured",
    .step "📝 Extracting content rendering logic...",
    .ok ("Found " ++ toString x.content.value.length ++ " content elements"),
    .step "📝 Generating Jinja template..."]

end Parts

def run (p : Project) (time : String) (convert : Converter) (chain : List String)
    (name : String) (f : SourceFiles) (options : ConvertOptions) : Conversion Summary := do
  let sourceFile := p.layout.relative f.template
  emit [.start f.component name options.aliases]
  let (text, source) ← readSource p name f
  let (attributes, applied) ← customize p f.component source.attributes
  let aliases := appendNew options.aliases applied.aliases
  let root ← ofExcept (rootElement name source)
  let nested := NestedComponent.detect (← files) source.imports source.renderBody f.template
  let (outcomes, failures) ← convertNested p convert chain options.convertNested nested
  let parts : Parts := { text, source, attributes, applied, root, nested, failures }
  emit (parts.events p.library)
  finish p time name aliases outcomes (parts.output p.library name sourceFile)

/-- One step: the conversion in terms of those of nested components. A name that is under way is
refused. -/
def convertStep (p : Project) (time : String) (convert : Converter) : Converter :=
  fun chain f options =>
    let name := options.outputName.getD f.component
    if chain.contains name then throw (.cycle (chain ++ [name]))
    else run p time convert (chain ++ [name]) name f options

/-- Conversion with a bound on how deep nested components may lie. -/
def convertWithin (p : Project) (time : String) : Nat → Converter
  | 0 => fun chain f options => throw (.cycle (chain ++ [options.outputName.getD f.component]))
  | depth + 1 => convertStep p time (convertWithin p time depth)

/-- The names under way differ, and all but the first are imported somewhere in the files, so there
are fewer than characters. -/
def depthBound (tree : FileTree) : Nat :=
  tree.files.foldl (fun n f => n + f.2.length) 2

/-- Converts a component of the project. `time` is noted in the definitions. -/
def convert (p : Project) (time component : String) (options : ConvertOptions) :
    Conversion Summary := do
  let f ← locate p component
  convertWithin p time (depthBound (← files)) [] f options

def convertCustom (p : Project) (time path : String) (options : ConvertOptions) :
    Conversion Summary := do
  if !(← files).has path then throw (.missingInput "Custom definition" path)
  let text ← read path
  let custom ← ofExcept (CustomComponent.parse text path)
  let name ← match (options.outputName.or custom.name).or (Path.fileStem? path) with
    | some name => pure name
    | none => throw (.structural "custom component" "no component name")
  let aliases := appendNew options.aliases custom.aliases
  let sourceFile := p.layout.relative path
  emit [.start name name aliases, .step "📝 Generating Jinja template..."]
  let made := (custom.templateInput name sourceFile).compile {}
  finish p time name aliases []
    { template := made.value
      definition := { sourceFile, source := text, attributes := custom.attributes }
      review := made.review }

end Project

end JsxToJinja
