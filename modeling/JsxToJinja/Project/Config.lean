import JsxToJinja.FileTree
import JsxToJinja.Json.Decode
import JsxToJinja.Json.Parser
import JsxToJinja.Json.Printer

/-! Where a project keeps its components and what is made from them. -/
namespace JsxToJinja
open Json (Written)

structure Config where
  /-- Holds one directory per component. -/
  componentsDir : String := "rvo/components"
  /-- Code of a component, relative to its directory. -/
  templateFile : String := "src/template.tsx"
  /-- Default values of a component, relative to its directory. -/
  defaultsFile : String := "src/defaultArgs.ts"
  templatesDir : String := "templates/components"
  definitionsDir : String := "conversion/definitions"
  reviewDir : String := "conversion/review"
  customizationsDir : String := "conversion/customizations"
  registryFile : String := "definitions.json"
  /-- Packages with the base library among them. -/
  nodeModulesDir : String := "rvo/node_modules"
  /-- Base components beside the known ones. -/
  mappingsFile : Option String := none
  convertNested : Bool := true
deriving Repr, DecidableEq

namespace Config

def fileName : String := "roos.config.json"

/-- A missing field takes its default. -/
def ofWritten? (v : Written) : Option Config := do
  let field ← v.record? ["componentsDir", "templateFile", "defaultsFile", "templatesDir",
    "definitionsDir", "reviewDir", "customizationsDir", "registryFile", "nodeModulesDir",
    "mappingsFile", "convertNested"]
  let standard : Config := {}
  let text (key default : String) : Option String :=
    Written.orDefault default Written.str? (field key)
  some
    { componentsDir := ← text "componentsDir" standard.componentsDir
      templateFile := ← text "templateFile" standard.templateFile
      defaultsFile := ← text "defaultsFile" standard.defaultsFile
      templatesDir := ← text "templatesDir" standard.templatesDir
      definitionsDir := ← text "definitionsDir" standard.definitionsDir
      reviewDir := ← text "reviewDir" standard.reviewDir
      customizationsDir := ← text "customizationsDir" standard.customizationsDir
      registryFile := ← text "registryFile" standard.registryFile
      nodeModulesDir := ← text "nodeModulesDir" standard.nodeModulesDir
      mappingsFile := ← Written.optional? Written.str? (field "mappingsFile")
      convertNested :=
        ← Written.orDefault standard.convertNested Written.bool? (field "convertNested") }

def parse? (text : String) : Option Config := (Written.parse? text).bind ofWritten?

/-- The configuration of a directory. Without a file it is the standard one. -/
def load? (root : String) (tree : FileTree) : Option Config :=
  match tree.read? (Path.join root fileName) with
  | some text => parse? text
  | none => some {}

def toJson (c : Config) : Json :=
  .obj ([("componentsDir", .str c.componentsDir), ("templateFile", .str c.templateFile),
      ("defaultsFile", .str c.defaultsFile), ("templatesDir", .str c.templatesDir),
      ("definitionsDir", .str c.definitionsDir), ("reviewDir", .str c.reviewDir),
      ("customizationsDir", .str c.customizationsDir), ("registryFile", .str c.registryFile),
      ("nodeModulesDir", .str c.nodeModulesDir)] ++
    (c.mappingsFile.map fun m => ("mappingsFile", Json.str m)).toList ++
    [("convertNested", .bool c.convertNested)])

def text (c : Config) : String := c.toJson.pretty ++ "\n"

end Config

/-- Every place of a project as a path. -/
structure Layout where
  root : String
  components : String
  templates : String
  definitions : String
  review : String
  customizations : String
  registry : String
  nodeModules : String
  mappings : Option String
deriving Repr, DecidableEq

def Config.layout (c : Config) (root : String) : Layout :=
  { root
    components := Path.join root c.componentsDir
    templates := Path.join root c.templatesDir
    definitions := Path.join root c.definitionsDir
    review := Path.join root c.reviewDir
    customizations := Path.join root c.customizationsDir
    registry := Path.join root c.registryFile
    nodeModules := Path.join root c.nodeModulesDir
    mappings := c.mappingsFile.map (Path.join root) }

namespace Layout

def template (l : Layout) (name : String) : String := Path.join l.templates (name ++ ".html.j2")

def definition (l : Layout) (name : String) : String := Path.join l.definitions (name ++ ".json")

def reviewDocument (l : Layout) (name : String) : String :=
  Path.join l.review (name ++ "_review.md")

/-- A path as seen from the root. Its steps stand between single slashes, so one outside the root
starts with two. -/
def relative (l : Layout) (path : String) : String :=
  "/".intercalate ((Path.steps ((Path.relativeTo? l.root path).getD path)).map Path.Step.text)

end Layout

def withoutTrailingSlashes (dir : String) : String :=
  String.ofList (dir.toList.reverse.dropWhile (· == '/')).reverse

def Config.componentOf? (c : Config) (sourceFile : String) : Option String := do
  let rest ← Text.dropHead? (withoutTrailingSlashes c.componentsDir ++ "/").toList sourceFile.toList
  let (component, file) ← Text.splitOnce? ['/'] rest
  if file == c.templateFile.toList then some (String.ofList component) else none

end JsxToJinja
