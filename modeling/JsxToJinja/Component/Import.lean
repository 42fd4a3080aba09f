import JsxToJinja.Code.Scan
import JsxToJinja.Text.Pattern

/-! Import statements. -/
namespace JsxToJinja
open JsxToJinja.Text JsxToJinja.Code

structure ImportedName where
  imported : String
  bound : String
deriving Repr, DecidableEq

/-- One `import … from '…'` statement. -/
structure Import where
  source : String
  defaultName : Option String := none
  names : List ImportedName := []
  namespaceName : Option String := none
  typeOnly : Bool := false
deriving Repr, DecidableEq

namespace Import

def isRelative (i : Import) : Bool :=
  startsWith i.source.toList "./".toList || startsWith i.source.toList "../".toList

/-- Names that the statement binds, the namespace apart. -/
def localNames (i : Import) : List String := i.defaultName.toList ++ i.names.map (·.bound)

/-- Exported name behind a bound one. A default import has no other name. -/
def importedName? (i : Import) (name : String) : Option String :=
  if i.defaultName == some name then some name
  else (i.names.find? (·.bound == name)).map (·.imported)

def isQuoteMark (c : Char) : Bool := c == '\x27' || c == '\x22'

def statement : Pattern :=
  .wordEdge ++ .lit "import" ++ .someBlanks ++ .opt (.group 1 (.lit "type" ++ .someBlanks)) ++
    .group 2 (.few 1 fun c => !isQuoteMark c && c != ';') ++ .someBlanks ++ .lit "from" ++
    .someBlanks ++ .one isQuoteMark ++ .group 3 (.many 1 fun c => !isQuoteMark c) ++ .one isQuoteMark

def named? (spec : List Char) : Option ImportedName :=
  let spec := trim ((dropHead? "type ".toList spec).getD spec)
  match (words spec).map String.ofList with
  | [] => none
  | imported :: "as" :: bound :: _ => some ⟨imported, bound⟩
  | imported :: _ => some ⟨imported, imported⟩

/-- One part of the clause: names in braces, a namespace or the default. -/
def addPart (i : Import) (part : List Char) : Import :=
  match part with
  | '\x7b' :: _ =>
    let inner := (balancedInner? part 0).getD []
    { i with names := i.names ++ (splitTopLevel inner [',']).filterMap named? }
  | '*' :: rest =>
    { i with namespaceName := (dropHead? "as".toList (trim rest)).map fun n => String.ofList (trim n) }
  | _ => { i with defaultName := some (String.ofList part) }

/-- Import statements in order. Those that bind nothing are no part of the answer. -/
def parse (t : List Char) : List Import :=
  (statement.findAll t).map fun m =>
    let start : Import :=
      { source := String.ofList (m.text t 3), typeOnly := (m.span? 1).isSome }
    (splitTopLevel (trim (m.text t 2)) [',']).foldl addPart start

end Import

end JsxToJinja
