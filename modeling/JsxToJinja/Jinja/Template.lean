import JsxToJinja.Classes.Expression
import JsxToJinja.Component.ArrayShape
import JsxToJinja.Content.Extract
import JsxToJinja.Jinja.ClassList
import JsxToJinja.Jinja.Literal

/-! The template of a component: it reads every attribute, collects the classes and renders the root
with its content. -/
namespace JsxToJinja.Jinja
open JsxToJinja.Text JsxToJinja.Code JsxToJinja.Markup

inductive RootTag where
  | fixed (name : String)
  /-- Code for a tag name known only when the template renders. -/
  | dynamic (code : String)
deriving Repr, DecidableEq

/-- An attribute that is there while a condition of code holds. -/
structure ConditionalAttribute where
  condition : String
  name : String
  value : String
deriving Repr, DecidableEq

structure RootElement where
  tag : RootTag := .fixed "div"
  attributes : Dict String := []
  conditional : List ConditionalAttribute := []
  /-- Outermost first. -/
  wrappers : List Wrapper := []
deriving Repr, DecidableEq

/-- A component attribute copied onto an element, the root if none is named. -/
structure PassThrough where
  name : String
  targetElement : Option String := none
  targetAttribute : String
deriving Repr, DecidableEq

/-- What a template is made from. -/
structure TemplateInput where
  name : String := ""
  sourceFile : String := ""
  sourceLine : Nat := 0
  attributes : List Attribute := []
  root : RootElement := {}
  classes : ClassList := {}
  content : List Content := []
  /-- Takes the place of the content. -/
  customContent : Option String := none
  /-- Base components in the content by the name it uses. -/
  inlineComponents : Dict BaseResolution := []
  arrayShapes : Dict ArrayShape := []
  nested : List NestedComponent := []
  passThrough : List PassThrough := []

namespace TemplateInput

def names (input : TemplateInput) : NameMap := .ofAttributes input.attributes

def jinja (input : TemplateInput) (code : String) : String := translate input.names code

def rootAttributeNames : List String :=
  ["id", "type", "disabled", "required", "readonly", "placeholder"]

def booleanAttributeNames : List String :=
  ["checked", "disabled", "hidden", "multiple", "open", "readonly", "required", "selected"]

def isVoidTag (tag : String) : Bool :=
  ["area", "base", "br", "col", "embed", "hr", "img", "input", "link", "meta", "source", "track",
    "wbr"].contains tag

def escapeAttribute (value : String) : String :=
  String.ofList (value.toList.flatMap fun c =>
    if c == '&' then "&amp;".toList else if c == '\x22' then "&quot;".toList else [c])

def attributeText (name value : String) : String := name ++ "=\"" ++ value ++ "\""

def classText (classes : List String) : String :=
  if classes.isEmpty then "" else " " ++ attributeText "class" (" ".intercalate classes)

/-- Keys, references and event handlers never reach a template. -/
def isRendered (p : Property) : Bool :=
  let isHandler := match p.name.toList with
    | 'o' :: 'n' :: c :: _ => c.isUpper
    | _ => false
  p.name != "key" && p.name != "ref" && !isHandler

def htmlName : String → String
  | "className" => "class"
  | "htmlFor" => "for"
  | "tabIndex" => "tabindex"
  | "readOnly" => "readonly"
  | name => name

/-- A passed attribute, there only when it has a value. -/
def passText (input : TemplateInput) (p : PassThrough) : String :=
  let v := input.names.resolve p.name
  guarded v (attributeText p.targetAttribute (output v))

/-- The class of a rule under its condition. The fallback stands for the values that no rule names.
-/
def ruleText (input : TemplateInput) (rules : List ClassRule) (r : ClassRule) : String :=
  let variableName := input.names.resolve r.prop
  let condition := match r.trigger with
    | .otherwise =>
      let values := (rules.filter (·.prop == r.prop)).filterMap fun other => match other.trigger with
        | .equals v => some (operand v)
        | _ => none
      some (variableName ++ " not in [" ++ ", ".intercalate values ++ "]")
    | trigger => conditionFor? input.names variableName trigger
  match condition with
  | some c => guarded c (" " ++ r.cssClass)
  | none => ""

def templateText (input : TemplateInput) (t : String × Option String) : String :=
  let value := " " ++ output ((templateLiteral? input.names t.1).getD (quote t.1))
  match t.2 with
  | some g => guarded (input.jinja g) value
  | none => value

def computedText (input : TemplateInput) (code : String) : String :=
  let value := input.jinja code
  guarded value (" " ++ output value)

def inlineClass (input : TemplateInput) (code : String) : String :=
  match stringLiteral? code.toList with
  | some classes => String.ofList classes
  | none =>
    let e := (ClassExpression.extract input.attributes code.toList).expandTemplates input.attributes
    if e.isEmpty then output (input.jinja code) else
      let text := " ".intercalate e.base ++ String.join (e.rules.map (ruleText input e.rules)) ++
        String.join (e.templates.map (templateText input)) ++
        String.join (e.computed.map (computedText input))
      String.ofList (trim text.toList)

/-- A property of a plain element as an attribute. Objects have no such form. -/
def propText (input : TemplateInput) (p : Property) : String :=
  let name := htmlName p.name
  match p.value with
  | .literal value => " " ++ attributeText name (escapeAttribute value)
  | .flag => " " ++ name
  | .expression code =>
    if name == "class" then " " ++ attributeText "class" (input.inlineClass code)
    else if startsWith code.toList ['\x7b'] then ""
    else if booleanAttributeNames.contains name then " " ++ guarded (input.jinja code) name
    else " " ++ attributeText name (output (input.jinja code))

def elementAttributes (input : TemplateInput) (u : Usage) : String :=
  String.join ((u.props.filter isRendered).map input.propText) ++
    String.join ((input.passThrough.filter (·.targetElement == some u.name)).map fun p =>
      " " ++ input.passText p)

/-- Output of a name. Content is marked as safe. -/
def outputOf (input : TemplateInput) (name : String) : String :=
  let code := input.jinja name
  if code == contentVariable then output (code ++ " | safe") else output code

/-- Each link is taken if it is true, else the rest decides. -/
def chainCode : List String → String
  | [] => ""
  | [last] => last
  | link :: rest => link ++ " if " ++ link ++ " else " ++ chainCode rest

/-- Output of the first of a chain that is true, or of the last. -/
def fallbackText (input : TemplateInput) (chain : List String) : String :=
  let links := chain.map input.jinja
  if links.isEmpty then ""
  else if links.contains contentVariable then output ("(" ++ chainCode links ++ ") | safe")
  else output (chainCode links)

def valueText? (input : TemplateInput) : Content → Option String
  | .literal t => some (quote (String.ofList (trim t.toList)))
  | .reference n none => some (input.jinja n)
  | _ => none

/-- The parts on one line, if each of them can stand there. -/
def joinInline (parts : List (Option String)) : Option String :=
  (parts.mapM id).map fun parts => " ".intercalate (parts.filter (!·.isEmpty))

mutual

/-- Content on a single line, where that is possible. -/
def inline? (input : TemplateInput) : Content → Option String
  | .literal t => some (String.ofList (trim t.toList))
  | .reference n none => some (input.outputOf n)
  | .fallback chain => some (input.fallbackText chain)
  | .call _ argument => some (output (input.jinja argument ++ " | safe"))
  | .ternary condition a b => do
    let yes ← input.valueText? a
    let no ← input.valueText? b
    some (output (yes ++ " if " ++ input.jinja condition ++ " else " ++ no))
  | .conditional condition body =>
    match inlineEach input body with
    | [some text] => some (guarded (input.jinja condition) text)
    | _ => none
  | .element u children =>
    if isVoidTag u.name then none else
      (joinInline (inlineEach input children)).map fun text =>
        "<" ++ u.name ++ input.elementAttributes u ++ ">" ++ text ++ "</" ++ u.name ++ ">"
  | _ => none

def inlineEach (input : TemplateInput) : List Content → List (Option String)
  | [] => []
  | c :: cs => inline? input c :: inlineEach input cs

end

/-- An open loop: the item variable and the array. -/
abbrev OpenLoop := String × String

/-- One attribute for every known key of an item, those given explicitly apart. -/
def spreadText (input : TemplateInput) (loop : OpenLoop) (u : Usage) : Reviewed String :=
  let (item, array) := loop
  match (Dict.get? input.arrayShapes array).filter (!·.itemProps.isEmpty) with
  | none =>
    ⟨"", [⟨"Spread of '" ++ item ++ "' into <" ++ u.name ++ "> could not be resolved to item props",
      .medium, some ("\x7b..." ++ item ++ "\x7d"), none,
      some "Pass the item fields to the nested component explicitly"⟩]⟩
  | some shape =>
    let accepted := shape.component.bind fun m =>
      input.nested.find? fun n => n.className == m.className && !n.props.isEmpty
    let kept := shape.itemProps.filter fun p =>
      accepted.all (·.props.contains p) && !u.props.any (·.name == p)
    pure (String.join (kept.map fun p =>
      " :" ++ attributeText p (input.names.resolve item ++ "." ++ p)))

/-- Attributes for what is spread, as far as it is the item of an open loop. -/
def spreadTexts (input : TemplateInput) (loops : List OpenLoop) (u : Usage) :
    List String → Reviewed String
  | [] => pure ""
  | s :: rest => do
    let first ← match loops.find? (·.1 == s) with
      | some loop => input.spreadText loop u
      | none => pure ""
    let others ← spreadTexts input loops u rest
    pure (first ++ others)

/-- A property of a nested component. Code is bound with a colon before the name. -/
def boundText (input : TemplateInput) (p : Property) : String :=
  match p.value with
  | .literal value => " " ++ attributeText p.name (escapeAttribute value)
  | .flag => " :" ++ attributeText p.name "true"
  | .expression code =>
    " :" ++ attributeText p.name
      (String.ofList (replaceAll ['\x22'] "&quot;".toList (input.jinja code).toList))

def closing (tag : String) : Line := .top ("</" ++ tag ++ ">")

/-- Children on the line of their tag if they fit there, else on lines of their own. -/
def wrap (opening tag : String) (inline : Option String) (body : List Line) : List Line :=
  match inline with
  | some text => [.top (opening ++ text ++ "</" ++ tag ++ ">")]
  | none => .top opening :: Line.deeper body ++ [closing tag]

def wrapperOpening (w : Wrapper) : String := "<" ++ w.tag ++ classText w.classes ++ ">"

def inWrapper (w : Wrapper) (body : List Line) : List Line :=
  .top (wrapperOpening w) :: Line.deeper body ++ [closing w.tag]

def baseOpening (r : BaseResolution) : String :=
  "<" ++ r.tag ++ classText r.classes ++ String.join (r.attributes.map fun (name, value) =>
    " " ++ attributeText name (escapeAttribute value)) ++ ">"

def baseLines (r : BaseResolution) (inline : Option String) (body : List Line) : List Line :=
  let lines :=
    if isVoidTag r.tag then [.top (baseOpening r)] else wrap (baseOpening r) r.tag inline body
  match r.wrapper with
  | some w => inWrapper w lines
  | none => lines

/-- A component: a base component as plain markup, any other under its own tag. The lines of the
children are made only where they are needed. -/
def componentLines (input : TemplateInput) (loops : List OpenLoop) (u : Usage)
    (inline : Option String) (noChildren : Bool) (body : Reviewed (List Line)) :
    Reviewed (List Line) :=
  match Dict.get? input.inlineComponents u.name with
  | some r =>
    if isVoidTag r.tag || inline.isSome then pure (baseLines r inline [])
    else do pure (baseLines r inline (← body))
  | none => do
    let tag := componentTag u.name
    let spread ← input.spreadTexts loops u u.spreads
    let head := "<" ++ tag ++ String.join ((u.props.filter isRendered).map input.boundText) ++ spread
    if noChildren then pure [.top (head ++ " />")]
    else if inline.isSome then pure (wrap (head ++ ">") tag inline [])
    else do pure (wrap (head ++ ">") tag none (← body))

def todoLines (input : TemplateInput) (code : String) : List Line :=
  Line.ofText ("\x7b# TODO_CONVERSION: Unsupported expression\n   Pattern: " ++
    String.ofList (replaceAll ['#', '\x7d'] ['#', ' ', '\x7d'] code.toList) ++
    "\n   Source: " ++ input.sourceFile ++ ":" ++ toString input.sourceLine ++
    "\n   Action: Translate this expression by hand\n#\x7d")

def inIf (condition : String) (body : List Line) : List Line :=
  .top (statement ("if " ++ condition)) :: Line.deeper body

def endIf : Line := .top (statement "endif")

mutual

/-- Lines of content. `loops` holds the open loops, innermost first. -/
def lines (input : TemplateInput) (loops : List OpenLoop) : Content → Reviewed (List Line)
  | .reference _ (some r) => lines input loops r
  | .element u children =>
    match inline? input (.element u children) with
    | some text => pure [.top text]
    | none =>
      let opening := "<" ++ u.name ++ input.elementAttributes u ++ ">"
      if isVoidTag u.name then pure [.top opening] else do
        pure (wrap opening u.name none (← linesAll input loops children))
  | .component u children =>
    input.componentLines loops u (joinInline (inlineEach input children)) children.isEmpty
      (linesAll input loops children)
  | .conditional condition body =>
    match inline? input (.conditional condition body) with
    | some text => pure [.top text]
    | none => do pure (inIf (input.jinja condition) (← linesAll input loops body) ++ [endIf])
  | .conditionalComponent condition u children => do
    let inner ← input.componentLines loops u (joinInline (inlineEach input children))
      children.isEmpty (linesAll input loops children)
    pure (inIf (input.jinja condition) inner ++ [endIf])
  | .ternary condition a b =>
    match inline? input (.ternary condition a b) with
    | some text => pure [.top text]
    | none => do
      let yes ← lines input loops a
      let no ← lines input loops b
      pure (inIf (input.jinja condition) yes ++ .top (statement "else") :: Line.deeper no ++ [endIf])
  | .branches bs => do pure ((← branchLines input loops true bs) ++ [endIf])
  | .arrayMap l body => do
    let inner ← linesAll input ((l.itemVar, l.array) :: loops) body
    let index := (l.indexVar.map fun i =>
      Line.top (statement ("set " ++ input.names.resolve i ++ " = loop.index0"))).toList
    pure (.top (statement ("for " ++ input.names.resolve l.itemVar ++ " in " ++ input.jinja l.array)) ::
      Line.deeper (index ++ inner) ++ [.top (statement "endfor")])
  | .unsupported code => pure (input.todoLines code)
  | c =>
    match inline? input c with
    | some text => pure (if text.isEmpty then [] else [.top text])
    | none => pure []

def linesAll (input : TemplateInput) (loops : List OpenLoop) : List Content → Reviewed (List Line)
  | [] => pure []
  | c :: cs => do
    let first ← lines input loops c
    let others ← linesAll input loops cs
    pure (first ++ others)

def branchLines (input : TemplateInput) (loops : List OpenLoop) (isFirst : Bool) :
    List Branch → Reviewed (List Line)
  | [] => pure []
  | b :: bs => do
    let arm ← armLines input loops isFirst b
    let others ← branchLines input loops false bs
    pure (arm ++ others)

def armLines (input : TemplateInput) (loops : List OpenLoop) (isFirst : Bool) :
    Branch → Reviewed (List Line)
  | .mk condition body => do
    let inner ← linesAll input loops body
    let opener := match condition with
      | some c => (if isFirst then "if " else "elif ") ++ input.jinja c
      | none => "else"
    pure (.top (statement opener) :: Line.deeper inner)

end

def headerLines (input : TemplateInput) : List Line :=
  [.top (statement "import 'components/_event_mixin.j2' as events"),
    .top ("\x7b# Auto-generated from React component: " ++ input.name),
    .top "   Manual edits: wrap in MANUAL_START/MANUAL_END tags to preserve #\x7d"]

def variableLine (names : NameMap) (a : Attribute) : Line :=
  let source :=
    if names.isRenamed a.name then "_component_context[" ++ quote a.name ++ "]"
    else "_component_context." ++ a.name
  let value := match defaultValue? a with
    | some v => source ++ " | default(" ++ literal v ++ ")"
    | none => source
  .top (statement ("set " ++ names.resolve a.name ++ " = " ++ value))

def variableLines (input : TemplateInput) : List Line :=
  (input.attributes.filter fun a => !a.isFunction && a.name != "children").map
    (variableLine input.names)

def forwardedText (input : TemplateInput) (a : Attribute) (html : String) : String :=
  let v := input.names.resolve a.name
  if a.isBoolean then guarded v html else attributeText html (output v)

/-- Attributes of the root, one a line. A static one gives way to a component attribute of its name. -/
def rootAttributes (input : TemplateInput) (options : Options) (tag : String) : List String :=
  let root := input.root
  let forwarded := (input.attributes.map fun a =>
    (a, String.ofList (a.name.toList.map Char.toLower))).filter fun f =>
      rootAttributeNames.contains f.2
  [attributeText "class" (output (options.classVar ++ " | join(' ')")),
    attributeText "data-roos-component" input.name] ++
  ((root.attributes.filter fun a => forwarded.all (·.2 != a.1)).map fun a =>
    attributeText a.1 (escapeAttribute a.2)) ++
  (root.conditional.map fun c =>
    guarded (input.jinja c.condition) (attributeText c.name (escapeAttribute c.value))) ++
  (forwarded.map fun f => input.forwardedText f.1 f.2) ++
  ((input.passThrough.filter fun p => p.targetElement.all (· == tag)).map input.passText) ++
  [output "events.render_extra_attributes(_component_context)"]

def bodyLines (input : TemplateInput) : Reviewed (List Line) :=
  match input.customContent with
  | some custom => pure (Line.ofText custom)
  | none =>
    if input.content.isEmpty then pure [.top "\x7b# Content #\x7d"]
    else linesAll input [] input.content

/-- The last attribute closes the tag. -/
def closeLast : List String → List String
  | [] => []
  | [last] => [last ++ ">"]
  | a :: rest => a :: closeLast rest

def rootLines (input : TemplateInput) (options : Options) : Reviewed (List Line) := do
  let (setup, tag, isVoid) := match input.root.tag with
    | .fixed tag => ([], tag, isVoidTag tag)
    | .dynamic code =>
      let expression := (templateLiteral? input.names code).getD (input.jinja code)
      ([Line.top (statement ("set tag_name = " ++ expression))], output "tag_name", false)
  let attributes := (closeLast (input.rootAttributes options tag)).map Line.top
  let body ← if isVoid then pure [] else input.bodyLines
  let element := .top ("<" ++ tag) :: Line.deeper (attributes ++ body) ++
    (if isVoid then [] else [closing tag])
  pure (setup ++ input.root.wrappers.foldr inWrapper element)

def compile (input : TemplateInput) (options : Options) : Reviewed String :=
  let root := input.rootLines options
  let all := input.headerLines ++ input.variableLines ++ input.classes.lines options.classVar ++
    root.value
  ⟨Line.renderAll options.indent all, input.names.review ++ root.review⟩

end TemplateInput

end JsxToJinja.Jinja
