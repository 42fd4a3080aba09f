import JsxToJinja.Json.Decode

/-! How a base component turns its properties into a tag, classes and attributes. -/
namespace JsxToJinja
open Json (Written)

/-- Classes and attributes that a value of a property adds. -/
structure PropEffect where
  classes : List String := []
  attributes : Dict String := []
deriving Repr, DecidableEq

inductive PropMapping where
  /-- Effects by value. -/
  | values (effects : Dict PropEffect)
  | boolean (whenTrue whenFalse : PropEffect)
  /-- The value becomes the value of an attribute. -/
  | attribute (name : String)
deriving Repr, DecidableEq

/-- Element around the primary one. -/
structure Wrapper where
  tag : String
  classes : List String := []
deriving Repr, DecidableEq

structure ComponentMapping where
  tag : String
  classes : List String := []
  attributes : Dict String := []
  wrapper : Option Wrapper := none
  props : Dict PropMapping := []
deriving Repr, DecidableEq

abbrev MappingTable := Dict (Dict ComponentMapping)

namespace PropEffect

def detailed? (v : Written) : Option PropEffect := do
  let field ← v.fields? ["classes", "attributes"]
  some ⟨← Written.orDefault [] Written.strings? (field "classes"),
    ← Written.orDefault [] (Written.dict? Written.str?) (field "attributes")⟩

/-- One class, a list of classes, or classes and attributes. -/
def ofWritten? (v : Written) : Option PropEffect :=
  match v with
  | .str s => some ⟨[s], []⟩
  | _ => ((Written.strings? v).map fun cs => ⟨cs, []⟩).or (detailed? v)

end PropEffect

namespace PropMapping

def values? (v : Written) : Option PropMapping := do
  let field ← v.fields? ["values"]
  some (.values (← Written.dict? PropEffect.ofWritten? (← field "values")))

def boolean? (v : Written) : Option PropMapping := do
  let outer ← v.fields? ["boolean"]
  let field ← (← outer "boolean").record?
    ["true_classes", "true_attributes", "false_classes", "false_attributes"]
  let classes (name : String) : Option (List String) :=
    Written.orDefault [] Written.strings? (field name)
  let attributes (name : String) : Option (Dict String) :=
    Written.orDefault [] (Written.dict? Written.str?) (field name)
  some (.boolean ⟨← classes "true_classes", ← attributes "true_attributes"⟩
    ⟨← classes "false_classes", ← attributes "false_attributes"⟩)

def attribute? (v : Written) : Option PropMapping := do
  let field ← v.fields? ["attribute"]
  some (.attribute (← (← field "attribute").str?))

/-- The first of the three forms that the value has. Trying them takes all of the value, so no part
of it may be unread. -/
def ofWritten? (v : Written) : Option PropMapping :=
  if v.isReadable then ((values? v).or (boolean? v)).or (attribute? v) else none

end PropMapping

def Wrapper.ofWritten? (v : Written) : Option Wrapper := do
  let field ← v.record? ["tag", "classes"]
  some ⟨← (← field "tag").str?, ← Written.orDefault [] Written.strings? (field "classes")⟩

def ComponentMapping.ofWritten? (v : Written) : Option ComponentMapping := do
  let field ← v.record? ["html_tag", "base_classes", "attributes", "wrapper", "prop_mappings"]
  some
    { tag := ← (← field "html_tag").str?
      classes := ← Written.orDefault [] Written.strings? (field "base_classes")
      attributes := ← Written.orDefault [] (Written.dict? Written.str?) (field "attributes")
      wrapper := ← Written.optional? Wrapper.ofWritten? (field "wrapper")
      props :=
        ← Written.orDefault [] (Written.dict? PropMapping.ofWritten?) (field "prop_mappings") }

def MappingTable.ofWritten? (v : Written) : Option MappingTable :=
  Written.dict? (Written.dict? ComponentMapping.ofWritten?) v

end JsxToJinja
