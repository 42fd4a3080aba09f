import JsxToJinja.Classes.Condition
import JsxToJinja.Jinja.Expr
import JsxToJinja.Jinja.Line

/-! The classes of the root, and the statements that collect them in a template. Conditions are
template expressions throughout. -/
namespace JsxToJinja.Jinja
open JsxToJinja.Text

/-- Arm of a chain; the one without a condition applies when no other does. -/
structure ClassArm where
  condition : Option String
  classes : List String
deriving Repr, DecidableEq

inductive ClassEntry where
  | guarded (condition : String) (classes : List String)
  /-- Arms that exclude each other; the first that holds wins. -/
  | chain (name : String) (arms : List ClassArm)
  /-- A value appended when it is true. -/
  | computed (expression : String)
  | template (expression : String) (guard : Option String)
deriving Repr, DecidableEq

structure ClassList where
  base : List String := []
  entries : List ClassEntry := []
deriving Repr, DecidableEq

/-- Strings compare in quotes even when they look like numbers. -/
def operand : Json → String
  | .str s => quote s
  | .null => "none"
  | v => v.compact

def conditionFor? (names : NameMap) (variableName : String) : Trigger → Option String
  | .truthy => some variableName
  | .falsy => some ("not " ++ variableName)
  | .equals v => some (variableName ++ " == " ++ operand v)
  | .condition code => some (translate names code)
  | .otherwise => none
  | .template .. => none

namespace ClassList

def isEmpty (cl : ClassList) : Bool := cl.base.isEmpty && cl.entries.isEmpty

def addBase (cl : ClassList) (classes : List String) : ClassList :=
  { cl with base := appendNew cl.base classes }

def guardInto (cssClass condition : String) : List ClassEntry → List ClassEntry
  | [] => [.guarded condition [cssClass]]
  | .guarded c classes :: rest =>
    if c == condition then .guarded c (appendNew classes [cssClass]) :: rest
    else .guarded c classes :: guardInto cssClass condition rest
  | e :: rest => e :: guardInto cssClass condition rest

/-- Classes under one condition share an entry. -/
def addConditional (cl : ClassList) (cssClass condition : String) : ClassList :=
  { cl with entries := guardInto cssClass condition cl.entries }

def addBoolean (cl : ClassList) (variableName cssClass : String) (negate : Bool) : ClassList :=
  cl.addConditional cssClass (if negate then "not " ++ variableName else variableName)

def armInto (condition : Option String) (cssClass : String) : List ClassArm → List ClassArm
  | [] => [⟨condition, if cssClass.isEmpty then [] else [cssClass]⟩]
  | a :: rest =>
    if a.condition == condition then
      ⟨a.condition, if cssClass.isEmpty then a.classes else appendNew a.classes [cssClass]⟩ :: rest
    else a :: armInto condition cssClass rest

/-- The arm without a condition goes last. -/
def fallbackLast (arms : List ClassArm) : List ClassArm :=
  arms.filter (·.condition.isSome) ++ arms.filter (·.condition.isNone)

def chainInto (name : String) (condition : Option String) (cssClass : String) :
    List ClassEntry → List ClassEntry
  | [] => [.chain name (armInto condition cssClass [])]
  | .chain n arms :: rest =>
    if n == name then .chain n (fallbackLast (armInto condition cssClass arms)) :: rest
    else .chain n arms :: chainInto name condition cssClass rest
  | e :: rest => e :: chainInto name condition cssClass rest

/-- Adds a class to the arm of a chain. An empty class opens the arm alone. -/
def addArm (cl : ClassList) (name : String) (condition : Option String) (cssClass : String) :
    ClassList :=
  { cl with entries := chainInto name condition cssClass cl.entries }

def addComputed (cl : ClassList) (expression : String) : ClassList :=
  { cl with entries := appendNew cl.entries [.computed expression] }

/-- The text without backticks around it. -/
def unticked (s : String) : String :=
  let isTick (c : Char) : Bool := c == '\x60'
  String.ofList ((s.toList.dropWhile isTick).reverse.dropWhile isTick).reverse

def addTemplate (cl : ClassList) (names : NameMap) (literal : String) (guard : Option String) :
    ClassList :=
  let expression := (templateLiteral? names literal).getD (quote (unticked literal))
  { cl with entries := cl.entries ++ [.template expression guard] }

/-- Rules of a chain become its arms; every other rule stands alone, also one on the same property. -/
def addRule (names : NameMap) (cl : ClassList) (r : ClassRule) : ClassList :=
  let variableName := names.resolve r.prop
  match r.chain, r.trigger with
  | some chain, .equals v =>
    cl.addArm chain (some (variableName ++ " == " ++ operand v)) r.cssClass
  | some chain, .otherwise => cl.addArm chain none r.cssClass
  | _, .template pattern _ guard =>
    cl.addTemplate names ("\x60" ++ pattern ++ "\x60") (guard.map (translate names))
  | _, trigger =>
    match conditionFor? names variableName trigger with
    | some condition => cl.addConditional r.cssClass condition
    | none => cl

def addRules (cl : ClassList) (names : NameMap) (rules : List ClassRule) : ClassList :=
  rules.foldl (addRule names) cl

def ofExtraction (names : NameMap) (e : Extraction) : ClassList :=
  let cl := ((({} : ClassList).addBase e.base).addRules names e.rules)
  let cl := e.computed.foldl (fun cl c => cl.addComputed (translate names c)) cl
  e.templates.foldl (fun cl (literal, guard) =>
    cl.addTemplate names literal (guard.map (translate names))) cl

def quotedList (classes : List String) : String := ", ".intercalate (classes.map quote)

def append (variableName items : String) : String :=
  statement ("set " ++ variableName ++ " = " ++ variableName ++ " + [" ++ items ++ "]")

def armLines (variableName : String) (opener : String) (classes : List String) : List Line :=
  [.top opener, ⟨1, if classes.isEmpty then "\x7b# no classes #\x7d"
    else append variableName (quotedList classes)⟩]

def laterArms (variableName : String) : List ClassArm → List Line
  | [] => [.top (statement "endif")]
  | a :: rest =>
    let opener := match a.condition with
      | some c => statement ("elif " ++ c)
      | none => statement "else"
    armLines variableName opener a.classes ++ laterArms variableName rest

/-- A fallback alone always applies. -/
def chainLines (variableName : String) (arms : List ClassArm) : List Line :=
  if arms.all (·.condition.isNone) then
    (arms.filter (!·.classes.isEmpty)).map fun a => .top (append variableName (quotedList a.classes))
  else match arms with
    | [] => []
    | a :: rest =>
      let opener := match a.condition with
        | some c => statement ("if " ++ c)
        | none => statement "else"
      armLines variableName opener a.classes ++ laterArms variableName rest

def entryLines (variableName : String) : ClassEntry → List Line
  | .guarded condition classes =>
    [.top (Jinja.guarded condition (append variableName (quotedList classes)))]
  | .chain _ arms => chainLines variableName arms
  | .computed expression => [.top (Jinja.guarded expression (append variableName expression))]
  | .template expression (some g) => [.top (Jinja.guarded g (append variableName expression))]
  | .template expression none => [.top (append variableName expression)]

def lines (cl : ClassList) (variableName : String) : List Line :=
  .top (statement ("set " ++ variableName ++ " = [" ++ quotedList cl.base ++ "]")) ::
    cl.entries.flatMap (entryLines variableName)

def text (cl : ClassList) : String :=
  let options : Options := {}
  Line.renderAll options.indent (cl.lines options.classVar)

end ClassList

end JsxToJinja.Jinja
