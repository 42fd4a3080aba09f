import JsxToJinja.Text.Slice

/-! Commands and the arguments they take. -/
namespace JsxToJinja.CommandLine
open JsxToJinja.Text

inductive OptionKind where
  | flag
  /-- Takes a value and stands at most once. -/
  | single
  /-- Takes a value each time. -/
  | repeated
deriving Repr, DecidableEq

structure OptionSpec where
  long : String
  short : Option Char
  kind : OptionKind
deriving Repr, DecidableEq

/-- The argument of a command that belongs to no option. -/
inductive Operand where
  | none
  | text
  /-- A path is never empty. -/
  | path
deriving Repr, DecidableEq

structure CommandSpec where
  options : List OptionSpec
  operand : Operand
deriving Repr, DecidableEq

/-- Why there is no command to run. -/
inductive Stop where
  | usage
  | help
  | version
deriving Repr, DecidableEq

/-- Arguments sorted by option. -/
structure Arguments where
  flags : List String := []
  values : List (String × String) := []
  operand : Option String := none
deriving Repr, DecidableEq

namespace Arguments

def has (a : Arguments) (flag : String) : Bool := a.flags.contains flag

def all (a : Arguments) (option : String) : List String :=
  (a.values.filter (·.1 == option)).map (·.2)

def get? (a : Arguments) (option : String) : Option String := (a.all option).head?

private def addFlag (a : Arguments) (o : OptionSpec) : Except Stop Arguments :=
  if a.has o.long then .error .usage else .ok { a with flags := a.flags ++ [o.long] }

private def addValue (a : Arguments) (o : OptionSpec) (value : String) : Except Stop Arguments :=
  if o.kind == .single && (a.get? o.long).isSome then .error .usage
  else .ok { a with values := a.values ++ [(o.long, value)] }

private def addOperand (spec : CommandSpec) (a : Arguments) (value : String) :
    Except Stop Arguments :=
  let isTaken := a.operand.isSome
  if isTaken || spec.operand == .none || spec.operand == .path && value.isEmpty then .error .usage
  else .ok { a with operand := some value }

private abbrev Partial := Arguments × Option OptionSpec

private def readLong (spec : CommandSpec) (a : Arguments) (t : List Char) :
    Except Stop Partial :=
  let (name, attached) := match splitOnce? ['='] t with
    | some (name, value) => (String.ofList name, some (String.ofList value))
    | none => (String.ofList t, none)
  if name == "help" && attached.isNone then .error .help else
    match spec.options.find? (·.long == name) with
    | none => .error .usage
    | some o =>
      match o.kind, attached with
      | .flag, none => (a.addFlag o).map (·, none)
      | .flag, some _ => .error .usage
      | _, none => .ok (a, some o)
      | _, some value => (a.addValue o value).map (·, none)

/-- Flags may share one dash. What follows an option that takes a value is the value. -/
private def readShort (spec : CommandSpec) : Arguments → List Char → Except Stop Partial
  | a, [] => .ok (a, none)
  | a, c :: t =>
    if c == 'h' then .error .help else
      match spec.options.find? (·.short == some c) with
      | none => .error .usage
      | some o =>
        if o.kind == .flag then do readShort spec (← a.addFlag o) t
        else match t with
          | [] => .ok (a, some o)
          | '=' :: value => (a.addValue o (String.ofList value)).map (·, none)
          | value => (a.addValue o (String.ofList value)).map (·, none)

private def isOption (arg : String) : Bool := startsWith arg.toList ['-'] && arg != "-"

private def readOne (spec : CommandSpec) (a : Arguments) (arg : String) : Except Stop Partial :=
  match arg.toList with
  | '-' :: '-' :: t => readLong spec a t
  | '-' :: c :: t => readShort spec a (c :: t)
  | _ => (addOperand spec a arg).map (·, none)

private def readFrom (spec : CommandSpec) : Partial → List String → Except Stop Arguments
  | (a, none), [] => .ok a
  | (_, some _), [] => .error .usage
  | (a, some o), arg :: rest =>
    if isOption arg then .error .usage else do readFrom spec (← a.addValue o arg, none) rest
  | (a, none), arg :: rest =>
    if arg == "--" then rest.foldlM (addOperand spec) a
    else do readFrom spec (← readOne spec a arg) rest

/-- Reads the arguments of a command. After two dashes nothing is an option. -/
def read (spec : CommandSpec) (args : List String) : Except Stop Arguments := do
  let a ← readFrom spec ({}, none) args
  if spec.operand != .none && a.operand.isNone then .error .usage else .ok a

end Arguments

inductive Command where
  /-- Writes a standard configuration. -/
  | init (force : Bool)
  /-- Converts a component, named by itself or by its directory. -/
  | convert (component : String) (name : Option String) (aliases : List String) (noNested : Bool)
  /-- Makes a component from a file that describes it. -/
  | custom (definition : String) (name : Option String)
  /-- Converts every component that has a definition. -/
  | regenerate (skip : List String) (verbose : Bool)
deriving Repr, DecidableEq

namespace Command

private def verbose : OptionSpec := ⟨"verbose", some 'v', .flag⟩

private def name : OptionSpec := ⟨"name", some 'n', .single⟩

private def initSpec : CommandSpec := ⟨[⟨"force", some 'f', .flag⟩], .none⟩

private def convertSpec : CommandSpec :=
  ⟨[name, ⟨"alias", some 'a', .repeated⟩, ⟨"no-nested", none, .flag⟩, verbose], .text⟩

private def customSpec : CommandSpec := ⟨[name, verbose], .path⟩

private def regenerateSpec : CommandSpec := ⟨[⟨"skip", some 's', .repeated⟩, verbose], .none⟩

private def isName (arg : String) : Bool :=
  ["init", "convert", "custom", "regenerate", "help"].contains arg

private def helpOn : List String → Stop
  | [] => .help
  | [topic] => if isName topic || topic == "-h" || topic == "--help" then .help else .usage
  | _ => .usage

private def topLevel (arg : String) : Stop :=
  match arg.toList with
  | '-' :: 'h' :: _ => .help
  | '-' :: 'V' :: _ => .version
  | _ => if arg == "--help" then .help else if arg == "--version" then .version else .usage

def parse : List String → Except Stop Command
  | [] => .error .usage
  | "init" :: args => do
    let a ← Arguments.read initSpec args
    pure (.init (a.has "force"))
  | "convert" :: args => do
    let a ← Arguments.read convertSpec args
    pure (.convert (a.operand.getD "") (a.get? "name") (a.all "alias") (a.has "no-nested"))
  | "custom" :: args => do
    let a ← Arguments.read customSpec args
    pure (.custom (a.operand.getD "") (a.get? "name"))
  | "regenerate" :: args => do
    let a ← Arguments.read regenerateSpec args
    pure (.regenerate (a.all "skip") (a.has "verbose"))
  | "help" :: args => .error (helpOn args)
  | arg :: _ => .error (topLevel arg)

end Command

end JsxToJinja.CommandLine
