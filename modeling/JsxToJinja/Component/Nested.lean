import JsxToJinja.Base.Resolve
import JsxToJinja.Component.Source

/-! Components of the same project that a component renders, found through its relative imports. -/
namespace JsxToJinja
open JsxToJinja.Text

/-- A component imported from another file and used in the markup. -/
structure NestedComponent where
  /-- Name under which the other file exports it. -/
  className : String
  /-- Name that the markup uses. -/
  localName : String
  name : String
  /-- Import path as written. -/
  sourcePath : String
  resolvedPath : Option String
  tagName : String
  interface : Option String
  /-- Names of its attributes. -/
  props : List String
deriving Repr, DecidableEq

namespace NestedComponent

/-- File behind a relative import: with `.tsx`, with `.ts`, its index file, or the path as written. -/
def resolveImport (tree : FileTree) (path importer : String) : Except ResolveError String :=
  let base := Path.join ((Path.parent? importer).getD "") path
  let isFile := endsWith path.toList ".tsx".toList || endsWith path.toList ".ts".toList
  let candidates :=
    if isFile then [base] else [base ++ ".tsx", base ++ ".ts", Path.join base "index.tsx", base]
  match (candidates.map Path.normalize).find? tree.has with
  | some found => .ok (Path.normalize found)
  | none => .error (.importNotFound path importer)

def isPropsInterface (name : String) : Bool :=
  startsWith name.toList ['I'] && endsWith name.toList "Props".toList

def isRendered (name : String) (markup : List Char) : Bool :=
  (.lit "<" ++ .lit name ++ .one fun c => isBlank c || c == '/' || c == '>' : Pattern).test markup

def describe (tree : FileTree) (i : Import) (localName className sourceFile : String) :
    NestedComponent :=
  let resolved := (resolveImport tree i.source sourceFile).toOption
  let interfaceName := "I" ++ className ++ "Props"
  let imported := if i.localNames.contains interfaceName then some interfaceName else none
  let parsed := do (Source.parse (← tree.read? (← resolved)) none className).toOption
  { className
    localName
    name := kebabCase className
    sourcePath := i.source
    resolvedPath := resolved
    tagName := componentTag className
    interface := imported.or (parsed.bind (·.propsType))
    props := (parsed.map fun s => s.attributes.map (·.name)).getD [] }

def addLocal (tree : FileTree) (markup : List Char) (sourceFile : String) (i : Import)
    (found : List NestedComponent) (localName : String) : List NestedComponent :=
  let className := (i.importedName? localName).getD localName
  if !isPascalCase localName || isPropsInterface className ||
      found.any (·.className == className) || !isRendered localName markup then found
  else found ++ [describe tree i localName className sourceFile]

/-- One entry for every imported class that the markup renders. -/
def detect (tree : FileTree) (imports : List Import) (markup : List Char) (sourceFile : String) :
    List NestedComponent :=
  (imports.filter fun i => i.isRelative && !i.typeOnly).foldl
    (fun found i => i.localNames.foldl (addLocal tree markup sourceFile i) found) []

end NestedComponent

end JsxToJinja
