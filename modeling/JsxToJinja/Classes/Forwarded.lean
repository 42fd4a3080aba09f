import JsxToJinja.Classes.Condition
import JsxToJinja.Markup.Element

/-! Class logic in properties handed to a wrapped base component. -/
namespace JsxToJinja.Forwarded
open JsxToJinja.Text JsxToJinja.Code JsxToJinja.Markup

/-- Properties of a root that carry no class logic. -/
def skippedProps : List String := ["className", "children", "ref", "key", "style", "id"]

def operand? (t : List Char) : Option Json :=
  let t := trim t
  match stringLiteral? t with
  | some s => some (.str (String.ofList s))
  | none =>
    if t == "true".toList then some (.bool true)
    else if t == "false".toList then some (.bool false)
    else none

/-- Classes that a value adds to those always there. -/
def newClasses (lookup : ClassLookup) (base : List String) (prop : String) (value : Json) :
    List String :=
  (lookup prop value).filter (!base.contains ·)

def underCondition (attributes : List Attribute) (condition : List Char)
    (classes : List String) : Extraction :=
  if classes.isEmpty then {} else
    match classifyCondition condition attributes with
    | .ok triggers =>
      { rules := triggers.flatMap fun (prop, trigger) =>
          classes.map fun c => ⟨prop, trigger, c, String.ofList condition, none⟩ }
    | .error problem =>
      { review := [⟨problem.message, .medium, some (String.ofList condition), none, none⟩] }

/-- Branches in order; the first value that is no literal ends the work with an item for review. -/
def branches (attributes : List Attribute) (classes : Json → List String)
    (problem : ReviewItem) : List (List Char × List Char) → Extraction
  | [] => {}
  | (condition, value) :: rest =>
    match operand? value with
    | none => { review := [problem] }
    | some v =>
      (underCondition attributes condition (classes v)).merge
        (branches attributes classes problem rest)

/-- A conditional value of a property. A side that is absent adds nothing. -/
def ternary (attributes : List Attribute) (classes : Json → List String) (prop : String)
    (condition yes no : List Char) : Extraction :=
  let isAbsent := no == "undefined".toList || no == "null".toList
  let problem : ReviewItem :=
    { issue := "Non-literal value for base prop: " ++ prop
      severity := .medium
      context := some (prop ++ "=\x7b" ++ String.ofList condition ++ " ? " ++ String.ofList yes ++
        " : " ++ String.ofList no ++ "\x7d") }
  branches attributes classes problem ((condition, yes) ::
    if isAbsent then [] else [("!(".toList ++ condition ++ [')'], no)])

def attributeValue (attributes : List Attribute) (classes : Json → List String)
    (name : String) : Extraction :=
  match Attribute.find? attributes name with
  | none => {}
  | some a =>
    if !a.enumValues.isEmpty then
      { rules := a.enumValues.flatMap fun v => (classes (.str v)).map fun c =>
          ⟨name, .equals (a.enumOperand v), c, name ++ " === '" ++ v ++ "'", none⟩ }
    else if a.isBoolean then
      { rules := ((classes (.bool true)).map fun c => ⟨name, .truthy, c, name, none⟩) ++
          (classes (.bool false)).map fun c => ⟨name, .falsy, c, name, none⟩ }
    else {}

def ofProp (attributes : List Attribute) (lookup : ClassLookup) (base skip : List String)
    (p : Property) : Extraction :=
  if skippedProps.contains p.name || startsWith p.name.toList "on".toList || skip.contains p.name then {}
  else match p.value with
  | .expression code =>
    let t := stripProps (trim code.toList)
    let classes := newClasses lookup base p.name
    if skip.contains (String.ofList t) then {} else
    match splitTernary? t with
    | some (condition, yes, no) => ternary attributes classes p.name condition yes no
    | none => if isIdentifier t then attributeValue attributes classes (String.ofList t) else {}
  | _ => {}

/-- Rules for conditionals and attributes that are handed on. `skip` names properties and variables
handled elsewhere; classes of `base` are left out. -/
def extract (attributes : List Attribute) (lookup : ClassLookup) (base : List String)
    (props : List Property) (skip : List String) : Extraction :=
  Extraction.mergeAll (props.map (ofProp attributes lookup base skip))

end JsxToJinja.Forwarded
