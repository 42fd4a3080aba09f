import JsxToJinja.Project.Config
import JsxToJinja.Project.Customization
import JsxToJinja.Project.Progress
import JsxToJinja.Project.Registry

/-! The files that conversions read and write, and the steps they are made of. -/
namespace JsxToJinja

/-- A project whose conversions share one configuration and one base library. -/
structure Project where
  config : Config
  layout : Layout
  library : BaseLibrary

/-- What conversions change. -/
structure Workspace where
  tree : FileTree
  /-- Tokens once they are read; later changes to their file do not count. -/
  tokens : Option (Dict Token) := none
  /-- Events so far. -/
  trace : List Event := []

/-- A step that may fail. What it did before it failed stays done. -/
abbrev Conversion := ExceptT ConvertError (StateM Workspace)

namespace Project

def make (root : String) (config : Config) (tree : FileTree) : Except ConvertError Project :=
  let layout := config.layout root
  let library := ({} : BaseLibrary).withPackages layout.nodeModules tree
  match layout.mappings with
  | none => .ok ⟨config, layout, library⟩
  | some path =>
    match library.withMappingsFile path tree with
    | .ok library => .ok ⟨config, layout, library⟩
    | .error cause => .error (.resolve cause)

def load (root : String) (tree : FileTree) : Except ConvertError Project :=
  match Config.load? root tree with
  | some config => make root config tree
  | none => .error .json

end Project

namespace Conversion

def emit (events : List Event) : Conversion Unit :=
  modify fun w => { w with trace := w.trace ++ events }

def files : Conversion FileTree := do return (← get).tree

def read (path : String) : Conversion String := do
  match (← files).read? path with
  | some text => pure text
  | none => throw (.unreadable path)

def write (path contents : String) : Conversion Unit :=
  modify fun w => { w with tree := w.tree.write path contents }

/-- Tokens of a directory, read at most once. -/
def tokens (dir : String) : Conversion (Dict Token) := do
  let w ← get
  match w.tokens with
  | some table => pure table
  | none =>
    let table ← ofExcept (Token.load dir w.tree)
    modify fun w => { w with tokens := some table }
    pure table

def tokenValues (dir reference : String) : Conversion (List String) := do
  ofExcept (Token.values dir (← tokens dir) reference)

/-- Writes a file and reports where. -/
def writeOutput (layout : Layout) (title path contents : String) : Conversion Unit := do
  emit [.step title]
  write path contents
  emit [.ok ("Written to: " ++ layout.relative path)]

def registerAll (target : String) : List String → Registry → Conversion Registry
  | [], registry => pure registry
  | name :: rest, registry => do
    if registry.has name then emit [.warn ("Updated existing alias: " ++ name)]
    registerAll target rest (registry.register name target)

def registerAliases (layout : Layout) (target : String) (aliases : List String) :
    Conversion Unit := do
  if aliases.isEmpty then return
  emit [.step "🏷  Registering aliases..."]
  match Registry.load? layout.registry (← files) with
  | none => throw .json
  | some registry =>
    let registry ← registerAll target aliases registry
    write layout.registry registry.text
    emit [.ok ("Registered " ++ toString aliases.length ++ " alias(es): " ++
      ", ".intercalate aliases)]

end Conversion

end JsxToJinja
