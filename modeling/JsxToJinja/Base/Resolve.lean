import JsxToJinja.Base.Builtin
import JsxToJinja.Base.Distribution
import JsxToJinja.FileTree
import JsxToJinja.Json.Parser

/-! What a base component renders for given properties: by its mapping, else as detected. -/
namespace JsxToJinja
open JsxToJinja.Text

structure BaseResolution where
  tag : String
  classes : List String := []
  attributes : Dict String := []
  wrapper : Option Wrapper := none
  /-- Properties without a mapping that do not simply pass through. -/
  unmapped : List String := []
  review : List ReviewItem := []
deriving Repr, DecidableEq

namespace BaseResolution

def unknown (library component : String) : BaseResolution :=
  { tag := "div"
    review := [⟨"Unknown base component: " ++ library ++ "/" ++ component, .medium, none, none,
      some "Add a mapping for this component to the base mappings file"⟩] }

def addEffect (r : BaseResolution) (effect : PropEffect) : BaseResolution :=
  { r with
    classes := appendNew r.classes effect.classes
    attributes := Dict.union r.attributes effect.attributes }

/-- Properties that never need a mapping. -/
def passesThrough (prop : String) : Bool :=
  startsWith prop.toList "on".toList ||
    ["className", "children", "style", "ref", "key"].contains prop

def addProp (mapping : ComponentMapping) (r : BaseResolution) (entry : String × Json) :
    BaseResolution :=
  let (prop, value) := entry
  let key := literalKey value
  match Dict.get? mapping.props prop with
  | none => if passesThrough prop then r else { r with unmapped := r.unmapped ++ [prop] }
  | some (.values effects) =>
    match Dict.get? effects key with
    | some effect => r.addEffect effect
    | none =>
      { r with review := r.review ++ [⟨"Unknown value for " ++ prop ++ ": " ++ key, .medium,
          some (prop ++ "=" ++ value.compact), none, none⟩] }
  | some (.boolean whenTrue whenFalse) => r.addEffect (if value.isTruthy then whenTrue else whenFalse)
  | some (.attribute name) => { r with attributes := Dict.insert name key r.attributes }

def ofMapping (mapping : ComponentMapping) (props : Fields) : BaseResolution :=
  props.foldl (addProp mapping)
    { tag := mapping.tag, classes := mapping.classes, attributes := mapping.attributes,
      wrapper := mapping.wrapper }

def ofDetected (d : Detected) : BaseResolution :=
  { tag := d.primary.tag
    classes := d.primary.classes
    attributes := d.primary.attributes
    wrapper := d.wrapper?.map fun outer => ⟨outer.tag, outer.classes⟩ }

end BaseResolution

inductive ResolveError where
  | importNotFound (path importer : String)
  /-- Without a reason the text of the file is at fault. -/
  | mappingFile (path : String) (reason : Option String)
deriving Repr, DecidableEq

def ResolveError.message : ResolveError → String
  | .importNotFound path importer => "Import not found: " ++ path ++ " imported by " ++ importer
  | .mappingFile path reason =>
    "Invalid base component mappings in " ++ path ++ ": " ++ reason.getD "invalid JSON"

/-- Known mappings and the text of the detectable library. -/
structure BaseLibrary where
  mappings : MappingTable := Builtin.table
  distribution : Option String := none

namespace BaseLibrary

def addComponents (table : MappingTable) (entry : String × Dict ComponentMapping) :
    MappingTable :=
  Dict.insert entry.1 (Dict.union ((Dict.get? table entry.1).getD []) entry.2) table

/-- Entries of the file replace known ones of the same component. -/
def withMappingsFile (base : BaseLibrary) (path : String) (tree : FileTree) :
    Except ResolveError BaseLibrary :=
  match tree.read? path with
  | none => .error (.mappingFile path (some (FileTree.missing path)))
  | some text =>
    match (Json.Written.parse? text).bind MappingTable.ofWritten? with
    | none => .error (.mappingFile path none)
    | some extra => .ok { base with mappings := extra.foldl addComponents base.mappings }

def withPackages (base : BaseLibrary) (packages : String) (tree : FileTree) : BaseLibrary :=
  let path := Path.join (Path.join (Path.join packages Builtin.libraryName) "dist") "index.esm.js"
  match tree.read? path with
  | some text => { base with distribution := some text }
  | none => base

def mapping? (base : BaseLibrary) (library component : String) : Option ComponentMapping :=
  (Dict.get? base.mappings library).bind (Dict.get? · component)

def detected? (base : BaseLibrary) (library component : String) : Option Detected :=
  if library == Builtin.libraryName then
    base.distribution.bind fun dist => Detected.ofDistribution? dist.toList component
  else none

/-- Every name of the detectable library counts as a base component. -/
def isBase (base : BaseLibrary) (library component : String) : Bool :=
  (base.mapping? library component).isSome || library == Builtin.libraryName

def libraries (base : BaseLibrary) : List String := Dict.keys base.mappings

/-- An unknown component is a plain container with an item for review. -/
def resolve (base : BaseLibrary) (library component : String) (props : Fields) : BaseResolution :=
  match base.mapping? library component with
  | some mapping => .ofMapping mapping props
  | none =>
    match base.detected? library component with
    | some d => .ofDetected d
    | none => .unknown library component

def classesFor (base : BaseLibrary) (library component : String) : ClassLookup := fun prop value =>
  match base.mapping? library component with
  | some mapping => (BaseResolution.ofMapping mapping [(prop, value)]).classes
  | none =>
    match base.detected? library component with
    | some d => d.classesFor prop value
    | none => []

end BaseLibrary

end JsxToJinja
