import JsxToJinja.Classes.Condition

/-! Class expressions: strings, helper calls such as `clsx(…)`, class arrays, objects, conditionals
and template literals. -/
namespace JsxToJinja.ClassExpression
open JsxToJinja.Text JsxToJinja.Code

def classHelpers : List String := ["clsx", "classNames", "classnames", "cx"]

def helperArguments? (t : List Char) : Option (List Char) := do
  let opening ← find? ['('] t
  if !classHelpers.contains (String.ofList (trim (t.take opening))) then none else
    let close ← balancedEnd? t opening
    if close + 1 == t.length then some (slice t (opening + 1) close) else none

/-- Items of an array literal that is joined at once. -/
def joinedItems? (t : List Char) : Option (List Char) := do
  if t.head? != some '[' then none else
    let close ← balancedEnd? t 0
    let rest := trimStart (t.drop (close + 1))
    if rest.head? == some '.' && contains rest ".join(".toList then some (slice t 1 close) else none

def medium (issue : String) (context : List Char) (action : Option String) : Extraction :=
  { review := [{ issue, severity := .medium, context := some (String.ofList context), action }] }

def conditional (attributes : List Attribute) (condition : List Char) (cssClass : String) :
    Extraction :=
  let condition := trim condition
  match classifyCondition condition attributes with
  | .ok triggers =>
    { rules := triggers.map fun (prop, trigger) =>
        ⟨prop, trigger, cssClass, String.ofList condition, none⟩ }
  | .error problem =>
    medium problem.message (condition ++ " && '".toList ++ cssClass.toList ++ ['\x27'])
      (some "List the matching values explicitly")

def conditionals (attributes : List Attribute) (condition : List Char)
    (classes : List Char) : Extraction :=
  Extraction.mergeAll ((tokens (String.ofList classes)).map (conditional attributes condition))

def template (t : List Char) (condition : Option (List Char)) : Extraction :=
  match templateVariable? t with
  | some (prop, pattern) =>
    let (excluded, guard) := templateGuard condition prop
    { rules := [⟨prop, .template pattern excluded guard, pattern,
        String.ofList (trim (condition.getD [])), none⟩] }
  | none =>
    { templates := [(String.ofList (stripProps (trim t)),
        condition.map fun c => String.ofList (stripProps (trim c)))] }

def isNothing (t : List Char) : Bool :=
  ["undefined", "null", "false", "''", "\"\""].any (t == ·.toList)

def branch (attributes : List Attribute) (condition value : List Char) : Extraction :=
  let value := stripOuterParens value
  if isNothing value then {} else
    match stringLiteral? value with
    | some classes => conditionals attributes condition classes
    | none =>
      if isTemplateLiteral value then template value (some condition)
      else medium "Unsupported conditional class value" (condition ++ " → ".toList ++ value) none

/-- One entry of a class object: classes as the key, their condition as the value. -/
def entry (attributes : List Attribute) (t : List Char) : Extraction :=
  if startsWith t "...".toList then medium "Spread in class object" t none else
    let (key, condition) := match findTopLevel? t [':'] with
      | some i => (trim (t.take i), trim (t.drop (i + 1)))
      | none => (t, t)
    if key.head? == some '[' then
      let computed := (balancedInner? key 0).getD []
      if isTemplateLiteral computed then template computed (some condition)
      else medium "Computed class key" t none
    else conditionals attributes condition ((stringLiteral? key).getD key)

/-- The last operand of `&&` is the class, the others are the condition. -/
def conjunction (attributes : List Attribute) (t : List Char) : Option Extraction :=
  if containsTopLevel t "&&".toList then
    let parts := splitTopLevel t "&&".toList
    parts.getLast?.map fun value =>
      branch attributes (" && ".toList.intercalate parts.dropLast) value
  else none

/-- Classes of one argument, followed through at most so many nested ones. -/
def argument (attributes : List Attribute) : Nat → List Char → Extraction
  | 0, _ => {}
  | fuel + 1, t =>
    let t := stripOuterParens t
    let each (items : List Char) : Extraction :=
      Extraction.mergeAll ((splitTopLevel items [',']).map (argument attributes fuel))
    if t.isEmpty then {} else
    match stringLiteral? t with
    | some classes => ({} : Extraction).addBase (String.ofList classes)
    | none =>
    if isTemplateLiteral t then template t none else
    match (helperArguments? t).or (joinedItems? t) with
    | some items => each items
    | none =>
    if isGroup '[' t then each (groupInner t)
    else if isGroup '\x7b' t then
      Extraction.mergeAll ((splitTopLevel (groupInner t) [',']).map (entry attributes))
    else match splitTernary? t with
    | some (condition, yes, no) =>
      (branch attributes condition yes).merge
        (branch attributes ("!(".toList ++ condition ++ [')']) no)
    | none =>
    match conjunction attributes t with
    | some found => found
    | none =>
    if isMemberPath t then { computed := [String.ofList (stripProps t)] }
    else medium "Unsupported class expression" t (some "Add the class logic to the template by hand")

def extract (attributes : List Attribute) (t : List Char) : Extraction :=
  argument attributes (t.length + 1) t

end JsxToJinja.ClassExpression
