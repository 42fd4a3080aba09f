import JsxToJinja.Code.Comment
import JsxToJinja.Component.Defaults
import JsxToJinja.Component.Import
import JsxToJinja.Component.TypeScope
import JsxToJinja.Markup.Mask
import JsxToJinja.Text.Naming

/-! One component file: declaration, attributes, defaults and rendered markup. Boundaries are looked
for in a copy in which embedded elements are blanked out. -/
namespace JsxToJinja
open JsxToJinja.Text JsxToJinja.Code JsxToJinja.Markup

inductive ParseError where
  | componentNotFound (hint : Option String)
  /-- `offset` counts bytes. -/
  | invalidSyntax (offset : Nat) (problem : String)
deriving Repr, DecidableEq

def ParseError.message : ParseError → String
  | .componentNotFound hint =>
    "No component declaration found" ++ ((hint.map (" for " ++ ·)).getD "")
  | .invalidSyntax offset problem => "Invalid syntax at " ++ toString offset ++ ": " ++ problem

/-- A root tag that is computed when the component renders. -/
structure DynamicTag where
  variableName : String
  expression : String
deriving Repr, DecidableEq

/-- What one component file says. -/
structure Source where
  name : String
  propsType : Option String
  attributes : List Attribute
  defaults : DefaultValues
  destructuring : Option Destructuring
  imports : List Import
  types : TypeScope
  /-- Statements before the final `return`. -/
  preamble : List Char
  /-- The returned markup, empty when there is none. -/
  renderBody : List Char
  renderLine : Nat
  dynamicTag : Option DynamicTag
  /-- The file without its comments. -/
  text : List Char

namespace Source

def root? (s : Source) : Option Element := firstElement? s.renderBody

def restProp? (s : Source) : Option String := s.destructuring.bind (·.rest)

def attribute? (s : Source) (name : String) : Option Attribute := Attribute.find? s.attributes name

/-- Where a component is declared. -/
structure Declaration where
  name : String
  exported : Bool
  start : Nat
  paramsOpen : Nat
  typeHint : Option (List Char)

def componentName : Pattern :=
  .one (fun c => 'A' ≤ c && c ≤ 'Z') ++ .many 0 fun c => isWord c || c == '$'

/-- Group 1 takes part when the declaration is exported. -/
def exportMark : Pattern := .opt (.group 1 (.lit "export" ++ .someBlanks))

/-- A component behind `forwardRef`; group 2 is its name, group 3 its type arguments. -/
def forwardRef : Pattern :=
  exportMark ++ .anyOf [.lit "const", .lit "let"] ++ .someBlanks ++ .group 2 componentName ++ .blanks ++
    .opt (.lit ":" ++ .many 1 (· != '=')) ++ .lit "=" ++ .blanks ++ .opt (.lit "React.") ++
    .lit "forwardRef" ++ .blanks ++
    .opt (.lit "<" ++ .group 3 (.many 0 fun c => c != '(' && c != ')') ++ .lit ">") ++ .blanks ++
    .lit "("

/-- A constant that may hold a function; group 2 is its name, group 3 its type. -/
def arrow : Pattern :=
  exportMark ++ .lit "const" ++ .someBlanks ++ .group 2 componentName ++ .blanks ++
    .opt (.lit ":" ++ .blanks ++ .group 3 (.few 1 (· != '='))) ++ .blanks ++ .lit "=" ++ .blanks ++
    .opt (.opt (.lit "React.") ++ .lit "memo" ++ .blanks ++ .lit "(" ++ .blanks) ++ .lit "("

/-- A function declaration; group 2 is its name. -/
def function : Pattern :=
  exportMark ++ .opt (.lit "default" ++ .someBlanks) ++ .lit "function" ++ .someBlanks ++
    .group 2 componentName ++ .blanks ++
    .opt (.lit "<" ++ .many 0 (fun c => c != '>' && c != '(') ++ .lit ">") ++ .blanks ++ .lit "("

def skipBlanks (t : List Char) (i : Nat) : Nat := i + ((t.drop i).takeWhile isBlank).length

def forwardRefParams? (masked : List Char) (after : Nat) : Option Nat :=
  let i := skipBlanks masked after
  let rest := masked.drop i
  if startsWith rest ['('] then some i
  else if startsWith rest "function".toList then (find? ['('] rest).map (i + ·)
  else none

/-- The parameter list is followed by `=>`, with a result type in between at most. -/
def isArrowFunction (masked : List Char) (paramsOpen : Nat) : Bool :=
  match balancedEnd? masked paramsOpen with
  | none => false
  | some close =>
    let after := trimStart (masked.drop (close + 1))
    startsWith after "=>".toList ||
      (startsWith after [':'] &&
        match find? "=>".toList after with
        | some i => !(after.take i).any fun c => c == ';' || c == '\x7b' || c == '='
        | none => false)

def genericArgument? (typeHint : List Char) : Option (List Char) := do
  let opening ← find? ['<'] typeHint
  let closing ← findLast? ['>'] typeHint
  if closing ≤ opening then none
  else (splitTopLevel (slice typeHint (opening + 1) closing) [',']).getLast?

def declarationOf (masked : List Char) (m : Match) (paramsOpen : Nat)
    (typeHint : Option (List Char)) : Declaration :=
  ⟨String.ofList (m.text masked 2), (m.span? 1).isSome, m.start, paramsOpen, typeHint⟩

/-- Of neighbours with one name the first stays. -/
def dropSameNeighbours : List Declaration → List Declaration
  | [] => []
  | d :: rest =>
    d :: match dropSameNeighbours rest with
      | [] => []
      | e :: more => if e.name == d.name then more else e :: more

/-- Declarations in order of their start. Of neighbours with one name the first counts. -/
def declarations (masked : List Char) : List Declaration :=
  let forwarded := (forwardRef.findAll masked).filterMap fun m =>
    (forwardRefParams? masked m.stop).map fun opening =>
      declarationOf masked m opening
        ((m.text? masked 3).bind fun g => (splitTopLevel g [',']).getLast?)
  let arrows := (arrow.findAll masked).filterMap fun m =>
    if isArrowFunction masked (m.stop - 1) then
      some (declarationOf masked m (m.stop - 1) ((m.text? masked 3).bind genericArgument?))
    else none
  let functions := (function.findAll masked).map fun m => declarationOf masked m (m.stop - 1) none
  dropSameNeighbours
    ((forwarded ++ arrows ++ functions).mergeSort fun a b => a.start ≤ b.start)

/-- The declaration that the hint names, else the first exported one, else the first. -/
def declaration? (masked : List Char) (hint : Option String) : Option Declaration :=
  let found := declarations masked
  let hinted := hint.bind fun h => found.find? fun d => kebabCase d.name == kebabCase h
  (hinted.or (found.find? (·.exported))).or found.head?

def paramType? (params : List Char) : Option (List Char) := do
  let first ← (splitTopLevel (stripOuterParens params) [',']).head?
  let colon ← findTopLevel? first [':']
  let type := trim (first.drop (colon + 1))
  if type.isEmpty then none else some type

def isNamePart (c : Char) : Bool := c.isAlphanum || c == '_' || c == '$'

def lastReturn? (block : List Char) : Option Nat :=
  let found := (marks block).filter fun m =>
    m.depth == 0 && startsWith m.rest "return".toList &&
      !(m.index != 0 && (block[m.index - 1]?).any isNamePart) &&
      !((m.rest[6]?).any isNamePart)
  found.getLast?.map (·.index)

/-- End of a statement that starts at `start`, with so many brackets open. -/
def statementEnd (start : Nat) : Nat → List Mark → Option Nat
  | _, [] => none
  | depth, m :: ms =>
    if isOpening m.char then statementEnd start (depth + 1) ms
    else if isClosing m.char then
      match depth with
      | 0 => some (start + m.index)
      | d + 1 => statementEnd start d ms
    else if m.char == ';' && depth == 0 then some (start + m.index)
    else statementEnd start depth ms

/-- Span of the expression at a position: a group in parentheses, an element, or all up to the end of
the statement. -/
def expressionSpan (t masked : List Char) (start : Nat) : Nat × Nat :=
  let rest := masked.drop start
  let group := if startsWith rest ['('] then balancedEnd? masked start else none
  let element := if startsWith (t.drop start) ['<'] then parseElement? t start else none
  match group, element with
  | some close, _ => (start + 1, close)
  | none, some e => (start, e.stop)
  | none, none => (start, (statementEnd start 0 (marks rest)).getD masked.length)

/-- Start of a function's body after its parameters: a block or the expression behind `=>`. -/
def bodyStart? (t masked : List Char) (after : Nat) : Option Nat :=
  (marks (masked.drop after)).findSome? fun m =>
    if m.depth != 0 then none
    else if startsWith m.rest "=>".toList then some (skipBlanks t (after + m.index + 2))
    else if m.char == '\x7b' then some (after + m.index)
    else none

/-- Spans of the statements before the final `return` and of what is returned. -/
def locateRender (t masked : List Char) (after : Nat) : (Nat × Nat) × (Nat × Nat) :=
  match bodyStart? t masked after with
  | none => ((after, after), (after, after))
  | some start =>
    if startsWith (masked.drop start) ['\x7b'] then
      let close := (balancedEnd? masked start).getD masked.length
      match lastReturn? (slice masked (start + 1) close) with
      | none => ((start + 1, close), (close, close))
      | some i =>
        let returnAt := start + 1 + i
        ((start + 1, returnAt), expressionSpan t masked (skipBlanks t (returnAt + 6)))
    else ((start, start), expressionSpan t masked start)

def constant : Pattern :=
  .anyOf [.lit "const", .lit "let"] ++ .someBlanks ++ .group 1 .identifier ++ .blanks ++
    .opt (.lit ":" ++ .many 1 (· != '=')) ++ .lit "=" ++ .blanks ++
    .group 2 (.many 1 fun c => c != ';' && c != '\n')

/-- The root tag when it is a local constant: neither markup nor a function. -/
def dynamicTag? (preamble renderBody : List Char) : Option DynamicTag := do
  let root ← firstElement? renderBody
  if !root.isComponent || contains root.name.toList ['.'] then none else
    (constant.findAll preamble).findSome? fun m =>
      if m.text preamble 1 != root.name.toList then none else
        let code := trim (m.text preamble 2)
        let code := match findTopLevel? code " as ".toList with
          | some i => trim (code.take i)
          | none => code
        if startsWith code ['<'] || contains code "=>".toList then none
        else some ⟨root.name, String.ofList code⟩

/-- Reads one component file. The hint picks one of several declarations. -/
def parse (text : String) (defaults hint : Option String) : Except ParseError Source := do
  let t := stripComments text.toList
  let masked := mask t
  let decl ← match declaration? masked hint with
    | some d => pure d
    | none => throw (.componentNotFound hint)
  let paramsClose ← match balancedEnd? masked decl.paramsOpen with
    | some i => pure i
    | none =>
      throw (.invalidSyntax (byteOffset t decl.paramsOpen) "unterminated parameter list")
  let params := slice t decl.paramsOpen (paramsClose + 1)
  let (before, render) := locateRender t masked (paramsClose + 1)
  let body := trim (slice t render.1 render.2)
  let renderBody := if (firstTag? body).isSome then body else []
  let types := TypeScope.parse text.toList
  let propsType := types.propsTypeName? ((paramType? params).or decl.typeHint)
  let table := (defaults.map fun d => defaultTable d.toList).getD []
  let destructuring := Destructuring.parse? params
  let values := match destructuring with
    | some d => d.splitDefaults table
    | none => ⟨[], table⟩
  let preamble := slice t before.1 before.2
  pure
    { name := decl.name
      propsType
      attributes := values.applyTo ((propsType.map types.attributesOf).getD [])
      defaults := values
      destructuring
      imports := Import.parse t
      types
      preamble
      renderBody
      renderLine := lineOf t render.1
      dynamicTag := dynamicTag? preamble renderBody
      text := t }

end Source

end JsxToJinja
