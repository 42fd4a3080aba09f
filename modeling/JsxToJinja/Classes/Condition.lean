import JsxToJinja.Classes.Rule
import JsxToJinja.Code.Ternary
import JsxToJinja.Text.Pattern

/-! Conditions on properties, and the triggers they come down to. -/
namespace JsxToJinja
open JsxToJinja.Text JsxToJinja.Code

def propsHead : List Char := "props.".toList

/-- Works from a character on, after the character `before`; the next `skip` ones are dropped. -/
def dropPropsFrom : Nat → Option Char → List Char → List Char
  | _, _, [] => []
  | skip + 1, _, c :: t => dropPropsFrom skip (some c) t
  | 0, before, c :: t =>
    if !before.any isWord && startsWith (c :: t) propsHead then
      dropPropsFrom (propsHead.length - 1) (some c) t
    else c :: dropPropsFrom 0 (some c) t

/-- Drops `props.` wherever it starts a word, in literals too. -/
def stripProps (t : List Char) : List Char := dropPropsFrom 0 none t

/-- First identifier that is no keyword for a value. -/
def firstIdentifier? (t : List Char) : Option String :=
  ((Pattern.identifier.findAll t).map fun m => String.ofList (slice t m.start m.stop)).find? fun w =>
    !(["typeof", "true", "false", "null", "undefined"].contains w)

def comparedProp? (name value : List Char) : Option (String × Json) :=
  if !isIdentifier name then none else
    match literalValue value with
    | .str s => if (stringLiteral? value).isNone then none else some (String.ofList name, .str s)
    | v => some (String.ofList name, v)

/-- Both sides of the longer operator, or else of the shorter one. -/
def splitComparison? (t long short : List Char) : Option (List Char × List Char) :=
  match findTopLevel? t long with
  | some i => some (t.take i, t.drop (i + long.length))
  | none => (findTopLevel? t short).map fun i => (t.take i, t.drop (i + short.length))

def eitherSide? (left right : List Char) : Option (String × Json) :=
  (comparedProp? (trim left) (trim right)).or (comparedProp? (trim right) (trim left))

/-- Property and value of `x === 'v'`, with the sides in either order. -/
def equality? (t : List Char) : Option (String × Json) := do
  let (left, right) ← splitComparison? (stripOuterParens t) "===".toList "==".toList
  if left.getLast? == some '!' then none else eitherSide? left right

/-- Property and value of `x !== 'v'`, with the sides in either order. -/
def inequality? (t : List Char) : Option (String × Json) := do
  let (left, right) ← splitComparison? (stripOuterParens t) "!==".toList "!=".toList
  eitherSide? left right

/-- A value of an enumeration as a comparison operand. Values of a numeric one are numbers. -/
def Attribute.enumOperand (a : Attribute) (value : String) : Json :=
  if a.hasType .number then
    match literalValue value.toList with
    | .num n => .num n
    | _ => .str value
  else .str value

def enumAttribute? (attributes : List Attribute) (name : String) : Option Attribute :=
  attributes.find? fun a => a.name == name && !a.enumValues.isEmpty

/-- Why a condition has no triggers. -/
inductive ConditionProblem where
  | unknownValues (prop : String)
  | noProp (condition : String)
deriving Repr, DecidableEq

def ConditionProblem.message : ConditionProblem → String
  | .unknownValues prop => "Inequality on '" ++ prop ++ "' without known enum values"
  | .noProp condition => "Condition without a prop: " ++ condition

def compoundCondition (c : List Char) : Except ConditionProblem (List (String × Trigger)) :=
  match firstIdentifier? c with
  | some prop => .ok [(prop, .condition (String.ofList c))]
  | none => .error (.noProp (String.ofList c))

def negatedProp? (c : List Char) : Option (String × Trigger) :=
  let twice := (dropHead? "!!".toList c).bind fun inner =>
    if isIdentifier (trim inner) then some (String.ofList (trim inner), Trigger.truthy) else none
  let once := (dropHead? "!".toList c).bind fun inner =>
    let inner := stripOuterParens inner
    if isIdentifier inner then some (String.ofList inner, Trigger.falsy) else none
  twice.or once

def simpleCondition (c : List Char) (attributes : List Attribute) :
    Except ConditionProblem (List (String × Trigger)) :=
  match negatedProp? c with
  | some found => .ok [found]
  | none =>
    if isIdentifier c then .ok [(String.ofList c, .truthy)] else
    match inequality? c with
    | some (prop, value) =>
      match enumAttribute? attributes prop with
      | none => .error (.unknownValues prop)
      | some a =>
        .ok ((a.enumValues.filter (· != literalKey value)).map fun v =>
          (prop, .equals (a.enumOperand v)))
    | none =>
      match equality? c with
      | some (prop, value) => .ok [(prop, .equals value)]
      | none => compoundCondition c

/-- Properties and triggers, one of which has to hold. Equalities on one property joined by `||` give
one trigger each, and an inequality stands for the other values of its property. -/
def classifyCondition (condition : List Char) (attributes : List Attribute) :
    Except ConditionProblem (List (String × Trigger)) :=
  let c := stripOuterParens (stripProps condition)
  if containsTopLevel c "||".toList then
    match (splitTopLevel c "||".toList).mapM equality? with
    | some eqs =>
      if eqs.all fun e => some e.1 == eqs.head?.map (·.1) then
        .ok (eqs.map fun (prop, value) => (prop, .equals value))
      else compoundCondition c
    | none => compoundCondition c
  else if containsTopLevel c "&&".toList then compoundCondition c
  else simpleCondition c attributes

/-- Values that a conjunction excludes for a property, and what is left of the conjunction. -/
def templateGuard (condition : Option (List Char)) (prop : String) : List String × Option String :=
  match condition with
  | none => ([], none)
  | some condition =>
    let parts := splitTopLevel (stripOuterParens (stripProps condition)) "&&".toList
    let excludedBy (part : List Char) : Option String :=
      (inequality? part).bind fun (p, value) => if p == prop then some (literalKey value) else none
    let rest := parts.filter fun p => (excludedBy p).isNone
    (parts.filterMap excludedBy,
      if rest.isEmpty then none else some (String.ofList (" && ".toList.intercalate rest)))

/-- The one identifier that a template literal interpolates, and the text between its quotes. -/
def templateVariable? (t : List Char) : Option (String × String) := do
  let parts ← templateParts? t
  let exprs := parts.filterMap fun p => match p with
    | .expr e => some (stripProps e.toList)
    | .text _ => none
  match exprs with
  | [name] =>
    if isIdentifier name then
      some (String.ofList name, String.ofList (stripProps (groupInner (trim t))))
    else none
  | _ => none

/-- Works from a character on; the next `skip` ones belong to an interpolation. -/
def fillTemplateFrom (value : List Char) : Nat → List Char → List Char
  | _, [] => []
  | skip + 1, _ :: t => fillTemplateFrom value skip t
  | 0, c :: t =>
    if startsWith (c :: t) ['$', '\x7b'] then
      match find? ['\x7d'] t with
      | some i => value ++ fillTemplateFrom value (i + 1) t
      | none => c :: t
    else c :: fillTemplateFrom value 0 t

def fillTemplate (pattern value : String) : String :=
  String.ofList (fillTemplateFrom value.toList 0 pattern.toList)

/-- What takes the place of a rule once the values of its property are known. -/
def expandRule (attributes : List Attribute) (r : ClassRule) : Extraction :=
  match r.trigger with
  | .template pattern excluded guard =>
    match enumAttribute? attributes r.prop with
    | none =>
      { templates := [("\x60" ++ pattern ++ "\x60",
          if excluded.isEmpty then guard else some r.condition)] }
    | some a =>
      { rules := (a.enumValues.filter (!excluded.contains ·)).map fun value =>
          let test := r.prop ++ " === '" ++ value ++ "'"
          let trigger := match guard with
            | some g => Trigger.condition (g ++ " && " ++ test)
            | none => .equals (a.enumOperand value)
          ⟨r.prop, trigger, fillTemplate pattern value, test, none⟩ }
  | _ => { rules := [r] }

/-- Replaces each template rule by one rule per value of its property. Without known values the
template stays. -/
def Extraction.expandTemplates (e : Extraction) (attributes : List Attribute) : Extraction :=
  let expanded := Extraction.mergeAll (e.rules.map (expandRule attributes))
  { e with rules := expanded.rules, templates := e.templates ++ expanded.templates }

end JsxToJinja
