import JsxToJinja.FileTree
import JsxToJinja.Json.Decode
import JsxToJinja.Json.Parser
import JsxToJinja.Json.Printer

/-! Aliases of components, in a file that other tools share. What is not known here stays. -/
namespace JsxToJinja
open Json (Written)

structure AliasEntry where
  name : String
  target : String
  defaultAttributes : Fields := []
  description : String := ""
  /-- Keys of other tools. -/
  extra : Fields := []
deriving Repr, BEq

structure Registry where
  aliases : List AliasEntry := []
  /-- Keys of other tools. -/
  other : Fields := []
deriving Repr, BEq

def splitKnown? (names : List String) : Written → Option ((String → Option Written) × Fields)
  | .obj fields => do
    let known ← Written.fields? names (.obj fields)
    let others ← Written.fieldValues? (fields.filter fun f => !names.contains f.1)
    some (known, Dict.ofList others)
  | _ => none

namespace AliasEntry

def ofWritten? (v : Written) : Option AliasEntry := do
  let (field, extra) ←
    splitKnown? ["name", "target_component", "default_attributes", "description"] v
  some
    { name := ← (← field "name").str?
      target := ← (← field "target_component").str?
      defaultAttributes :=
        ← Written.orDefault [] (Written.dict? Written.value?) (field "default_attributes")
      description := ← Written.orDefault "" Written.str? (field "description")
      extra }

def toJson (e : AliasEntry) : Json :=
  .obj ([("name", .str e.name), ("target_component", .str e.target),
    ("default_attributes", .obj e.defaultAttributes), ("description", .str e.description)] ++ e.extra)

def describe (target : String) : String := "Alias for " ++ target

def new (name target : String) : AliasEntry := { name, target, description := describe target }

def repoint (e : AliasEntry) (target : String) : AliasEntry :=
  { e with target, description := describe target }

end AliasEntry

namespace Registry

def ofWritten? (v : Written) : Option Registry := do
  let (field, other) ← splitKnown? ["aliases"] v
  some ⟨← Written.orDefault [] (Written.list? AliasEntry.ofWritten?) (field "aliases"), other⟩

def parse? (text : String) : Option Registry := (Written.parse? text).bind ofWritten?

/-- The registry of a file, empty if there is none. -/
def load? (path : String) (tree : FileTree) : Option Registry :=
  match tree.read? path with
  | some text => parse? text
  | none => some {}

def toJson (r : Registry) : Json :=
  .obj (("aliases", .arr (r.aliases.map AliasEntry.toJson)) :: r.other)

def text (r : Registry) : String := r.toJson.pretty ++ "\n"

def get? (r : Registry) (name : String) : Option AliasEntry := r.aliases.find? (·.name == name)

def has (r : Registry) (name : String) : Bool := (r.get? name).isSome

/-- Repoints the first entry of a name, or adds one at the end. -/
def repointFirst (name target : String) : List AliasEntry → List AliasEntry
  | [] => [.new name target]
  | e :: rest =>
    if e.name == name then e.repoint target :: rest else e :: repointFirst name target rest

/-- Points an alias at a component. A new alias comes last. -/
def register (r : Registry) (name target : String) : Registry :=
  { r with aliases := repointFirst name target r.aliases }

theorem find?_repointFirst_self (name target : String) (entries : List AliasEntry) :
    ((repointFirst name target entries).find? (·.name == name)).map (·.target) = some target := by
  induction entries with
  | nil => simp [repointFirst, AliasEntry.new]
  | cons e rest ih =>
    rw [repointFirst]
    split
    · simp_all [AliasEntry.repoint]
    · simp_all

theorem find?_repointFirst_of_ne {name other : String} (target : String)
    (entries : List AliasEntry) (h : other ≠ name) :
    (repointFirst name target entries).find? (·.name == other) =
      entries.find? (·.name == other) := by
  induction entries with
  | nil => simp [repointFirst, AliasEntry.new, Ne.symm h]
  | cons e rest ih =>
    rw [repointFirst]
    split
    · simp_all [AliasEntry.repoint, Ne.symm h]
    · simp [List.find?_cons, ih]

/-- An alias stands for the component it was pointed at last. -/
theorem target_register_self (r : Registry) (name target : String) :
    ((r.register name target).get? name).map (·.target) = some target :=
  find?_repointFirst_self name target r.aliases

/-- Other aliases stay as they are. -/
theorem get?_register_of_ne (r : Registry) {name other : String} (target : String)
    (h : other ≠ name) : (r.register name target).get? other = r.get? other :=
  find?_repointFirst_of_ne target r.aliases h

end Registry

end JsxToJinja
