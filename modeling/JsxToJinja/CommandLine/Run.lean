import JsxToJinja.CommandLine.Arguments
import JsxToJinja.Project.Convert

/-! What a command prints and changes. -/
namespace JsxToJinja.CommandLine
open JsxToJinja.Text

structure Outcome where
  exitCode : Nat := 0
  stdout : String := ""
  stderr : String := ""
  tree : FileTree

private def reported (message : String) : String := unlines ["", "Error: " ++ message, ""]

private def usageText : String := unlines [
  "Convert React components into Jinja templates",
  "",
  "Usage: roos-convert <COMMAND>",
  "",
  "Commands:",
  "  init        Write a default roos.config.json [-f|--force]",
  "  convert     Convert one component and the components it renders",
  "              <COMPONENT> [-n|--name <NAME>] [-a|--alias <ALIAS>]... [--no-nested] [-v|--verbose]",
  "  custom      Generate a component from a custom JSON definition",
  "              <DEFINITION> [-n|--name <NAME>] [-v|--verbose]",
  "  regenerate  Re-run the conversion of every component with a definition",
  "              [-s|--skip <SKIP>]... [-v|--verbose]",
  "  help        Print this message"]

private def setUp (root : String) (tree : FileTree) (force : Bool) : Outcome :=
  let path := Path.join root Config.fileName
  if tree.hasPlace path && !force then
    { tree
      stdout := unlines ["⚠️ " ++ Config.fileName ++ " already exists", "Use --force to overwrite"] }
  else
    let config : Config := {}
    { tree := tree.write path config.text
      stdout := unlines ["📝 Initializing Roos project...", "  ✓ Created " ++ Config.fileName, "",
        "✅ Project initialized!", "", "Next steps:",
        "  1. Check the paths in " ++ Config.fileName,
        "  2. Run: roos-convert convert <component>",
        "  3. Review the files in " ++ config.reviewDir ++ "/"] }

private def runOne (root : String) (tree : FileTree) (action : Except ConvertError (Conversion Summary)) :
    Outcome :=
  match action with
  | .error e => { exitCode := 1, stderr := reported e.message, tree }
  | .ok step =>
    let (result, w) := step.run.run { tree }
    let stdout := String.join (w.trace.map (Event.console root))
    match result with
    | .ok _ => { stdout, tree := w.tree }
    | .error e => { exitCode := 1, stdout, stderr := reported e.message, tree := w.tree }

private def convert (root time : String) (tree : FileTree) (component : String)
    (name : Option String) (aliases : List String) (noNested : Bool) : Outcome :=
  match Config.load? root tree with
  | none => { exitCode := 1, stderr := reported ConvertError.json.message, tree }
  | some config =>
    match Path.fileName? component with
    | none => { exitCode := 1, stderr := reported ("Invalid component: " ++ component), tree }
    | some component =>
      runOne root tree ((Project.make root config tree).map fun p =>
        p.convert time component ⟨name, aliases, config.convertNested && !noNested⟩)

private def custom (root time : String) (tree : FileTree) (definition : String)
    (name : Option String) : Outcome :=
  runOne root tree ((Project.load root tree).map fun p =>
    p.convertCustom time (Path.join root definition) { outputName := name })

/-- What a definition was made from. -/
inductive Origin where
  | component (name : String)
  | custom (path : String)
  /-- Made while another component was converted. -/
  | nested
deriving Repr, DecidableEq

def Origin.of (config : Config) (sourceFile : String) : Origin :=
  if endsWith sourceFile.toList ".json".toList then .custom sourceFile else
    match config.componentOf? sourceFile with
    | some name => .component name
    | none => .nested

private def definitionFiles (tree : FileTree) (dir : String) : List String :=
  ((dir :: (tree.children dir).map (Path.join dir)).filter fun p =>
    Path.extension? p == some "json").mergeSort fun a b => !Path.lt b a

private def readDefinition (tree : FileTree) (config : Config) (path : String) :
    Except String (String × Origin) :=
  match tree.read? path with
  | none => .error "Is a directory (os error 21)"
  | some text =>
    match Json.parse? text with
    | none => .error "invalid JSON"
    | some v =>
      match (v.get? "name").bind Json.str? with
      | none => .error "definition has no name"
      | some name => .ok (name, .of config (((v.get? "source_file").bind Json.str?).getD ""))

private structure Tally where
  workspace : Workspace
  stdout : String := ""
  stderr : String := ""
  converted : Nat := 0
  skipped : Nat := 0
  failed : Nat := 0

namespace Tally

private def skip (t : Tally) (line : String) : Tally :=
  { t with skipped := t.skipped + 1, stdout := t.stdout ++ unlines [line] }

private def fail (t : Tally) (line : String) : Tally :=
  { t with failed := t.failed + 1, stderr := t.stderr ++ unlines [line] }

private def convert (t : Tally) (root : String) (verbose : Bool) (name : String)
    (step : Conversion Summary) : Tally :=
  let (result, w) := step.run.run { t.workspace with trace := [] }
  let report := if verbose then String.join (w.trace.map (Event.console root)) else ""
  let t := { t with workspace := w, stdout := t.stdout ++ report }
  match result with
  | .ok s =>
    { t with
      converted := t.converted + 1
      stdout := t.stdout ++ unlines ["  ✅ " ++ name ++ " (" ++ toString s.automation ++
        "% automated, " ++ toString s.reviewItems ++ " review items)"] }
  | .error e => t.fail ("  ❌ " ++ name ++ " - " ++ e.message)

private def add (p : Project) (time : String) (skip : List String) (verbose : Bool) (t : Tally)
    (path : String) : Tally :=
  match readDefinition t.workspace.tree p.config path with
  | .error message => t.fail ("  ✗ " ++ path ++ " - " ++ message)
  | .ok (name, origin) =>
    if skip.contains name then t.skip ("  ⏭ " ++ name ++ " (skipped)") else
      let options : ConvertOptions := ⟨some name, [], p.config.convertNested⟩
      let root := p.layout.root
      match origin with
      | .component c => t.convert root verbose name (p.convert time c options)
      | .custom file =>
        t.convert root verbose name (p.convertCustom time (Path.join root file) options)
      | .nested => t.skip ("  ⏭ " ++ name ++ " (nested, regenerated with its parent)")

private def outcome (t : Tally) : Outcome :=
  let counts := " Regenerated " ++ toString t.converted ++ " components, " ++ toString t.skipped ++
    " skipped"
  if t.failed = 0 then
    { stdout := t.stdout ++ unlines ["", "✅" ++ counts], stderr := t.stderr,
      tree := t.workspace.tree }
  else
    { exitCode := 1
      stdout := t.stdout ++ unlines ["", "⚠️" ++ counts ++ ", " ++ toString t.failed ++ " errors"]
      stderr := t.stderr ++ reported (toString t.failed ++ " component(s) failed to regenerate")
      tree := t.workspace.tree }

end Tally

private def regenerate (root time : String) (tree : FileTree) (skip : List String)
    (verbose : Bool) : Outcome :=
  match Config.load? root tree with
  | none => { exitCode := 1, stderr := reported ConvertError.json.message, tree }
  | some config =>
    let dir := (config.layout root).definitions
    let title := "🔁 Regenerating components..."
    if !tree.hasPlace dir then
      { exitCode := 1, stderr := reported ("Definitions directory does not exist: " ++ dir), tree }
    else
      let found := definitionFiles tree dir
      if found.isEmpty then { stdout := unlines [title, "⚠️  No definitions found"], tree } else
        let stdout := unlines [title, "Found " ++ toString found.length ++ " definitions"]
        match Project.make root config tree with
        | .error e => { exitCode := 1, stdout, stderr := reported e.message, tree }
        | .ok p =>
          (found.foldl (Tally.add p time skip verbose) { workspace := { tree }, stdout }).outcome

/-- Runs a command in a root directory. `time` is noted in the definitions. -/
def Command.run (root time : String) (tree : FileTree) : Command → Outcome
  | .init force => setUp root tree force
  | .convert component name aliases noNested => CommandLine.convert root time tree component name aliases noNested
  | .custom definition name => CommandLine.custom root time tree definition name
  | .regenerate skip verbose => CommandLine.regenerate root time tree skip verbose

def run (root time : String) (tree : FileTree) (args : List String) : Outcome :=
  match Command.parse args with
  | .ok command => command.run root time tree
  | .error .help => { stdout := usageText, tree }
  | .error .version => { stdout := "roos-convert 0.1.0\n", tree }
  | .error .usage => { exitCode := 2, stderr := usageText, tree }

end JsxToJinja.CommandLine
