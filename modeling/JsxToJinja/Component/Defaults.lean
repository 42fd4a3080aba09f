import JsxToJinja.Code.Literal
import JsxToJinja.Component.Attribute
import JsxToJinja.Text.Pattern

/-! Default values from a table of examples and from the parameter list of a component. -/
namespace JsxToJinja
open JsxToJinja.Text JsxToJinja.Code

/-- The name holds the word "default" in any ASCII case. -/
def mentionsDefault (name : List Char) : Bool :=
  contains (name.map Char.toLower) "default".toList

/-- Start of an exported object; group 1 is its name. -/
def exportedObject : Pattern :=
  .lit "export" ++ .someBlanks ++ .anyOf [.lit "const", .lit "let", .lit "var"] ++ .someBlanks ++
    .group 1 .identifier ++ .blanks ++ .opt (.lit ":" ++ .many 1 (· != '=')) ++ .lit "=" ++ .blanks ++
    .one (· == '\x7b')

/-- Entries of the exported object whose name mentions "default", else of the first exported one. -/
def defaultTable (t : List Char) : Fields :=
  let found := exportedObject.findAll t
  match (found.find? fun m => mentionsDefault (m.text t 1)).or found.head? with
  | none => []
  | some m => ((balancedInner? t (m.stop - 1)).map objectEntries).getD []

/-- Right side of `name = code` in a parameter pattern. -/
inductive ParamDefault where
  | literal (value : Json)
  /-- An entry of the table of defaults, by its key. -/
  | table (key : String)
  | other (code : String)
deriving Repr, BEq

/-- The object pattern of a parameter list. -/
structure Destructuring where
  names : List String := []
  defaults : List (String × ParamDefault) := []
  /-- Name bound to the properties that are left over. -/
  rest : Option String := none
deriving Repr, BEq

namespace Destructuring

/-- Position of an `=` outside brackets that assigns, so none of `==`, `=>`, `<=`, `>=` and `!=`. -/
def findAssignment? (t : List Char) : Option Nat :=
  ((marks t).find? fun m =>
    m.depth == 0 && m.char == '=' &&
      (match m.rest with
        | _ :: c :: _ => c != '=' && c != '>'
        | _ => true) &&
      (m.index == 0 ||
        match t[m.index - 1]? with
        | some c => !(c == '=' || c == '!' || c == '<' || c == '>')
        | none => true)).map (·.index)

/-- Two names with a point between them, and nothing else. -/
def tableEntry : Pattern :=
  .start ++ .group 1 .identifier ++ .lit "." ++ .group 2 .identifier ++ .finish

/-- Kind of a default value in a parameter list. -/
def classify (code : List Char) : ParamDefault :=
  match literal? code with
  | some v => .literal v
  | none =>
    let t := trim code
    match tableEntry.find? t with
    | some m =>
      if mentionsDefault (m.text t 1) then .table (String.ofList (m.text t 2))
      else .other (String.ofList code)
    | none => .other (String.ofList code)

/-- One name of the parameter list, maybe with another name and a default. -/
def addEntry (d : Destructuring) (entry : List Char) : Destructuring :=
  match dropHead? "...".toList entry with
  | some rest => { d with rest := some (String.ofList (trim rest)) }
  | none =>
    let (pattern, value) := match findAssignment? entry with
      | some i => (trim (entry.take i), some (trim (entry.drop (i + 1))))
      | none => (entry, none)
    let name := match findTopLevel? pattern [':'] with
      | some i => trim (pattern.take i)
      | none => pattern
    if name.isEmpty then d else
      let name := String.ofList name
      { d with
        names := d.names ++ [name]
        defaults := d.defaults ++ (value.map fun v => (name, classify v)).toList }

/-- The pattern in a parameter list, or none when the component takes its properties whole. -/
def parse? (params : List Char) : Option Destructuring := do
  let t := stripOuterParens params
  let m ← (marks t).find? fun m => m.depth == 0 && m.char == '\x7b'
  let inner ← balancedInner? t m.index
  some ((splitTopLevel inner [',']).foldl addEntry {})

/-- Defaults named in the pattern are actual; what else the table holds are examples. -/
def splitDefaults (d : Destructuring) (table : Fields) : DefaultValues :=
  let actual := d.defaults.foldl (fun (acc : Fields) (name, value) =>
    match value with
    | .literal v => Dict.insert name v acc
    | .table key =>
      match Dict.get? table key with
      | some v => Dict.insert name v acc
      | none => acc
    | .other _ => acc) []
  ⟨actual, table.filter fun (key, _) => (Dict.get? actual key).isNone⟩

end Destructuring

end JsxToJinja
