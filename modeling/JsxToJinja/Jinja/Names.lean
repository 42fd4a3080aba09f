import JsxToJinja.Component.Attribute
import JsxToJinja.Review

/-! Template variables for attributes whose names a template cannot use. -/
namespace JsxToJinja

/-- Keywords, and names that every template defines itself. -/
def reservedNames : List String := [
  "and", "as", "block", "caller", "elif", "else", "endfor", "endif", "extends", "false",
  "False", "for", "from", "if", "import", "in", "include", "is", "kwargs", "loop", "macro",
  "none", "None", "not", "or", "recursive", "self", "set", "true", "True", "varargs", "with",
  "_component_context", "css_classes", "events", "tag_name"]

def isReserved (name : String) : Bool := reservedNames.contains name

/-- New names by attribute. -/
structure NameMap where
  renames : Dict String := []
deriving Repr, DecidableEq

namespace NameMap

/-- Adds underscores until the name is neither reserved nor taken. There are fewer such names than
steps. -/
def fresh (taken : List String) : Nat → String → String
  | 0, name => name
  | fuel + 1, name =>
    if isReserved name || taken.contains name then fresh taken fuel (name ++ "_") else name

/-- A reserved name gets a new one, once. -/
def declare (names : NameMap) (name : String) : NameMap :=
  if !isReserved name || Dict.has names.renames name then names else
    let taken := names.renames.map (·.2)
    let renamed := fresh taken (reservedNames.length + taken.length + 1) (name ++ "_attr")
    ⟨Dict.insert name renamed names.renames⟩

def ofNames (names : List String) : NameMap := names.foldl declare {}

def ofAttributes (attributes : List Attribute) : NameMap := ofNames (attributes.map (·.name))

def resolve (names : NameMap) (name : String) : String := (Dict.get? names.renames name).getD name

def isRenamed (names : NameMap) (name : String) : Bool := Dict.has names.renames name

def review (names : NameMap) : List ReviewItem :=
  names.renames.map fun (name, renamed) =>
    ⟨"Attribute '" ++ name ++ "' renamed to '" ++ renamed ++ "' in the template", .low, some name,
      none, none⟩

end NameMap

end JsxToJinja
