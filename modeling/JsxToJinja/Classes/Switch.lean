import JsxToJinja.Classes.Condition
import JsxToJinja.Markup.Element

/-! Switch statements that set one variable, and the class rules they come down to. -/
namespace JsxToJinja
open JsxToJinja.Text JsxToJinja.Code JsxToJinja.Markup

structure SwitchCase where
  values : List Json
  result : String
deriving Repr, BEq

/-- `let r; switch (v) …` with an assignment to `r` in every arm. -/
structure Switch where
  subject : String
  target : String
  /-- In order: the first case that lists a value wins. -/
  cases : List SwitchCase
  default : Option String
deriving Repr, BEq

namespace Switch

def select? (s : Switch) (key : String) : Option String :=
  ((s.cases.find? fun c => c.values.any (literalKey · == key)).map (·.result)).or s.default

def isPathChar (c : Char) : Bool := isWord c || c == '$' || c == '.'

def head : Pattern :=
  .anyOf [.lit "let", .lit "var"] ++ .someBlanks ++ .group 1 .identifier ++ .blanks ++
    .opt (.lit ":" ++ .many 1 fun c => c != '=' && c != ';') ++
    .opt (.lit "=" ++ .blanks ++ .many 1 (· != ';')) ++ .lit ";" ++ .blanks ++ .lit "switch" ++
    .blanks ++ .lit "(" ++ .blanks ++ .group 2 (.many 1 isPathChar) ++ .blanks ++ .lit ")" ++ .blanks ++
    .one (· == '\x7b')

def caseValue : Pattern :=
  let quoted (q : Char) : Pattern := .one (· == q) ++ .many 0 (· != q) ++ .one (· == q)
  .anyOf [quoted '\x27', quoted '\x22', .many 1 fun c => isPathChar c || c == '-']

/-- A label, the default label or an assignment to the target. -/
def landmark (target : String) : Pattern :=
  .anyOf [.wordEdge ++ .lit "case" ++ .someBlanks ++ .group 1 caseValue ++ .blanks ++ .lit ":",
    .wordEdge ++ .lit "default" ++ .blanks ++ .lit ":",
    .wordEdge ++ .lit target ++ .blanks ++ .lit "=" ++ .blanks ++ .group 2 caseValue]

structure Arms where
  cases : List SwitchCase := []
  pending : List Json := []
  inDefault : Bool := false
  default : Option String := none

/-- Takes the next landmark into account. Labels wait until an assignment gives their result. -/
def step (body : List Char) (arms : Arms) (m : Match) : Arms :=
  match m.text? body 1, m.text? body 2 with
  | some label, _ => { arms with pending := arms.pending ++ [literalValue label] }
  | none, some value =>
    let result := String.ofList ((stringLiteral? value).getD value)
    { cases :=
        if arms.pending.isEmpty then arms.cases else arms.cases ++ [⟨arms.pending, result⟩]
      pending := []
      inDefault := false
      default := if arms.inDefault then arms.default.or (some result) else arms.default }
  | none, none => { arms with inDefault := true }

def ofBody? (body : List Char) (target subject : String) : Option Switch :=
  let arms := ((landmark target).findAll body).foldl (step body) {}
  if arms.cases.isEmpty && arms.default.isNone then none
  else some ⟨subject, target, arms.cases, arms.default⟩

def parseAll (t : List Char) : List Switch :=
  (head.findAll t).filterMap fun m => do
    let body ← balancedInner? t (m.stop - 1)
    ofBody? body (String.ofList (m.text t 1)) (String.ofList (stripProps (m.text t 2)))

def jsText : Json → String
  | .str s => "'" ++ s ++ "'"
  | v => v.compact

/-- Classes of a result: through the property that the target is handed to, or its own words when the
class expression uses the target. -/
def classesOf (s : Switch) (props : List Property) (classCode : Option (List Char))
    (lookup : ClassLookup) (base : List String) (result : String) : List String :=
  if ["", "undefined", "null"].contains result then [] else
    let receiver := props.find? fun p => match p.value with
      | .expression e => trim e.toList == s.target.toList
      | _ => false
    let used := classCode.any fun t => (.wordEdge ++ .lit s.target ++ .wordEdge : Pattern).test t
    let classes := match receiver with
      | some p => lookup p.name (.str result)
      | none => if used then tokens result else []
    classes.filter (!base.contains ·)

structure Arm where
  trigger : Trigger
  classes : List String
  condition : String

/-- One arm for each label; a label seen before never matches again. -/
def caseArms (s : Switch) (classes : String → List String) :
    List Json → List (Json × String) → List Arm
  | _, [] => []
  | seen, (value, result) :: rest =>
    if seen.contains value then caseArms s classes seen rest
    else ⟨.equals value, classes result, s.subject ++ " === " ++ jsText value⟩ ::
      caseArms s classes (seen ++ [value]) rest

def armRules (s : Switch) (arm : Arm) : List ClassRule :=
  let classes := if arm.classes.isEmpty then [""] else arm.classes
  classes.map fun c => ⟨s.subject, arm.trigger, c, arm.condition, some ("switch:" ++ s.target)⟩

/-- One chain of rules. A case without classes keeps an empty arm, so that only values that no case
lists fall through to the default. -/
def rules (s : Switch) (props : List Property) (classCode : Option (List Char))
    (lookup : ClassLookup) (base : List String) : List ClassRule :=
  let classes := s.classesOf props classCode lookup base
  let labelled := s.cases.flatMap fun c => c.values.map fun v => (v, c.result)
  let fallback := match s.default with
    | some d =>
      if (classes d).isEmpty then [] else [(⟨.otherwise, classes d, "default → " ++ d⟩ : Arm)]
    | none => []
  let arms := caseArms s classes [] labelled ++ fallback
  if arms.all (·.classes.isEmpty) then [] else arms.flatMap (armRules s)

end Switch

end JsxToJinja
