import JsxToJinja.Text.Slice

/-! Slash-separated paths. Only the text is looked at, never a disk. -/
namespace JsxToJinja.Path
open JsxToJinja.Text

/-- Steps of a path, in the order that sorts them. -/
inductive Step where
  | root
  | here
  | up
  | name (text : String)
deriving Repr, DecidableEq

def Step.text : Step → String
  | root => "/"
  | here => "."
  | up => ".."
  | name text => text

def isAbsolute (p : String) : Bool := p.toList.head? == some '/'

/-- Texts between the slashes, empty ones included. -/
def pieces (p : String) : List String := (splitOn ['/'] p.toList).map String.ofList

/-- Pieces that are no step. -/
def isVoid (piece : String) : Bool := piece == "" || piece == "."

def stepOf (piece : String) : Step := if piece == ".." then .up else .name piece

/-- Doubled slashes and inner `.` are no steps; a `.` in front of a relative path is one. -/
def steps (p : String) : List Step :=
  let ps := pieces p
  let first : List Step :=
    if isAbsolute p then [.root] else if ps.head? == some "." then [.here] else []
  first ++ (ps.filter (!isVoid ·)).map stepOf

def joinPieces (ps : List String) : String := "/".intercalate ps

/-- Names after one more step. A `..` takes back the last name; without a name before it, it stays,
also right after the root. -/
def enter (names : List String) : Step → List String
  | .root | .here => names
  | .up => if names.isEmpty then [".."] else names.dropLast
  | .name n => names ++ [n]

/-- Names that a path leads through, without `.` and as far as possible without `..`. -/
def names (p : String) : List String := (steps p).foldl enter []

def normalize (p : String) : String :=
  (if isAbsolute p then "/" else "") ++ joinPieces (names p)

/-- An absolute right side replaces the left one; an empty one leaves a trailing slash. -/
def join (a b : String) : String :=
  if isAbsolute b || a.isEmpty then b
  else if a.toList.getLast? == some '/' then a ++ b
  else a ++ "/" ++ b

def rankOf : Step → Nat
  | .root => 0
  | .here => 1
  | .up => 2
  | .name _ => 3

/-- Compares step by step; a path comes before those it starts. -/
def before : List Step → List Step → Bool
  | [], [] => false
  | [], _ :: _ => true
  | _ :: _, [] => false
  | a :: as, b :: bs =>
    match a, b with
    | .name x, .name y => if x == y then before as bs else x < y
    | _, _ => if rankOf a == rankOf b then before as bs else rankOf a < rankOf b

def lt (a b : String) : Bool := before (steps a) (steps b)

/-- Pieces without trailing slashes and `.`; the first piece always stays. -/
def trimPieces (ps : List String) : List String :=
  match ps with
  | [] => []
  | p :: rest => p :: (rest.reverse.dropWhile isVoid).reverse

def asText (absolute : Bool) (ps : List String) : String :=
  if absolute && ps == [""] then "/" else joinPieces ps

/-- The path without its last step. The root and the empty path have no parent. -/
def parent? (p : String) : Option String :=
  let ps := trimPieces (pieces p)
  match ps with
  | [] => none
  | [only] => if isVoid only && only != "." then none else some ""
  | _ => some (asText (isAbsolute p) (trimPieces ps.dropLast))

def fileName? (p : String) : Option String :=
  match (steps p).getLast? with
  | some (.name n) => some n
  | _ => none

def lastDot? (name : String) : Option Nat :=
  match findLast? ['.'] name.toList with
  | some (i + 1) => some (i + 1)
  | _ => none

/-- File name up to its last dot. A dot in front starts no extension. -/
def fileStem? (p : String) : Option String :=
  (fileName? p).map fun name =>
    match lastDot? name with
    | some i => String.ofList (name.toList.take i)
    | none => name

def extension? (p : String) : Option String := do
  let name ← fileName? p
  let i ← lastDot? name
  some (String.ofList (name.toList.drop (i + 1)))

def dropSteps : Nat → List String → List String
  | 0, ps => ps.dropWhile isVoid
  | _ + 1, [] => []
  | n + 1, p :: ps => if isVoid p then dropSteps (n + 1) ps else dropSteps n ps

/-- What follows `base`, when the steps of the path start with those of `base`. -/
def relativeTo? (base p : String) : Option String :=
  let bs := steps base
  let ss := steps p
  if bs.isPrefixOf ss then
    let named := bs.filter fun s => s != .root && s != .here
    let ps := pieces p
    if bs.isEmpty then some (asText (isAbsolute p) (trimPieces ps))
    else
      let rest := dropSteps named.length ps
      some (joinPieces ((rest.reverse.dropWhile isVoid).reverse))
  else none

end JsxToJinja.Path
