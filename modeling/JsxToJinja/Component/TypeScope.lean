import JsxToJinja.Code.Literal
import JsxToJinja.Component.Attribute
import JsxToJinja.Text.Pattern

/-! Interfaces and type aliases of a file, and the attributes they describe. -/
namespace JsxToJinja
open JsxToJinja.Text JsxToJinja.Code

/-- A member of an object type. -/
structure Member where
  name : String
  optional : Bool
  type : List Char
  description : Option String
deriving Repr, DecidableEq

inductive TypeDecl where
  | interface (parents : List (List Char)) (members : List Member)
  | synonym (type : List Char)
deriving Repr, DecidableEq

/-- Declarations in order, each name once. A later declaration replaces an earlier one in its place. -/
structure TypeScope where
  decls : List (String × TypeDecl) := []
deriving Repr, DecidableEq

namespace Member

def endsWithAny (t : List Char) (ends : List Char) : Bool :=
  match t.getLast? with
  | some c => ends.contains c
  | none => false

def startsWithAny (t : List Char) (starts : List Char) : Bool :=
  match t with
  | c :: _ => starts.contains c
  | [] => false

/-- A line break does not end a member when an operator before or after it asks for more. -/
def continuesAt (t : List Char) (i : Nat) : Bool :=
  let before := trimEnd (t.take i)
  endsWithAny before ['|', '&', ':', '=', '(', '<'] ||
    startsWithAny (trimStart (t.drop i)) ['|', '&', '=', '?'] || before.isEmpty

/-- End of a member, given the number of open angle brackets and the character read last. -/
def endFrom (t : List Char) : Nat → Char → List Mark → Option Nat
  | _, _, [] => none
  | angle, last, m :: ms =>
    if m.depth != 0 then endFrom t angle m.char ms
    else if m.char == '<' then endFrom t (angle + 1) m.char ms
    else if m.char == '>' && last != '=' then endFrom t (angle - 1) m.char ms
    else if (m.char == ';' || m.char == ',') && angle == 0 then some m.index
    else if m.char == '\n' && angle == 0 && !continuesAt t m.index then some m.index
    else endFrom t angle m.char ms

/-- End of the member at the front: the first `;`, `,` or line break outside brackets and type
arguments, where a line break has to end an expression. -/
def stop? (t : List Char) : Option Nat := endFrom t 0 ' ' (marks t)

/-- Name of a member, the mark of an optional one, and what starts its type or parameters. -/
def head : Pattern :=
  let quoted (q : Char) (n : Nat) : Pattern :=
    .one (· == q) ++ .group n (.many 1 (· != q)) ++ .one (· == q)
  .start ++ .opt (.lit "readonly" ++ .someBlanks) ++
    .anyOf [quoted '\x27' 1, quoted '\x22' 2, .group 3 .identifier] ++
    .blanks ++ .opt (.group 4 (.lit "?")) ++ .blanks ++ .group 5 (.one fun c => c == ':' || c == '(')

/-- A method counts as a function without parameters. -/
def parse? (t : List Char) (description : Option String) : Option Member := do
  let m ← head.find? t
  let name ← ((m.text? t 1).or (m.text? t 2)).or (m.text? t 3)
  let type := if m.text t 5 == ['('] then "() => void".toList else trim (t.drop m.stop)
  some ⟨String.ofList name, (m.span? 4).isSome, type, description⟩

def dropEnd (tail t : List Char) : List Char :=
  (dropRepeated tail.reverse t.reverse).reverse

/-- Text of a comment without its marks, empty lines and tags. -/
def description? (comment : List Char) : Option String :=
  let inner := dropEnd "*/".toList (dropRepeated "/*".toList (dropRepeated "/**".toList comment))
  let kept := ((lines inner).map fun l => trim (dropRepeated ['*'] (trim l))).filter fun l =>
    !l.isEmpty && l.head? != some '@'
  if kept.isEmpty then none else some (String.ofList ([' '].intercalate kept))

/-- Reads members one by one; a comment before a member describes it. -/
def parseFrom : Nat → Option String → List Char → List Member
  | 0, _, _ => []
  | fuel + 1, doc, t =>
    let t := trimStart t
    if t.isEmpty then []
    else if startsWith t ['/', '*'] then
      let n := ((find? ['*', '/'] t).map (· + 2)).getD t.length
      parseFrom fuel (description? (t.take n)) (t.drop n)
    else if startsWith t ['/', '/'] then
      parseFrom fuel doc (t.dropWhile (· != '\n'))
    else
      let stop := stop? t
      let n := stop.getD t.length
      (parse? (trim (t.take n)) doc).toList ++ parseFrom fuel none (t.drop (n + 1))

/-- Members of the inside of an object type. A block comment describes the member after it. -/
def parseAll (body : List Char) : List Member := parseFrom (body.length + 1) none body

/-- A later member replaces an earlier one of its name in place. -/
def merge (members more : List Member) : List Member :=
  more.foldl (fun acc m =>
    if acc.any (·.name == m.name) then acc.map fun o => if o.name == m.name then m else o
    else acc ++ [m]) members

end Member

/-- Name of a type without its path and arguments. -/
def baseTypeName (t : List Char) : List Char :=
  let t := trim ((trim t).takeWhile (· != '<'))
  ((splitOn ['.'] t).getLast?).getD t

def genericParts? (t : List Char) : Option (List Char × List Char) := do
  let t := trim t
  let i ← find? ['<'] t
  if t.getLast? != some '>' then none else
    let wrapper := trim (t.take i)
    if isMemberPath wrapper then
      some (((splitOn ['.'] wrapper).getLast?).getD wrapper, (t.drop (i + 1)).dropLast)
    else none

namespace TypeScope

def insert (scope : TypeScope) (name : String) (decl : TypeDecl) : TypeScope :=
  if scope.decls.any (·.1 == name) then
    ⟨scope.decls.map fun d => if d.1 == name then (name, decl) else d⟩
  else ⟨scope.decls ++ [(name, decl)]⟩

def interfaceHead : Pattern :=
  .opt (.lit "export" ++ .someBlanks) ++ .lit "interface" ++ .someBlanks ++ .group 1 .identifier ++
    .blanks ++ .opt (.lit "<" ++ .many 0 (fun c => c != '>' && c != '\x7b') ++ .lit ">") ++ .blanks ++
    .opt (.lit "extends" ++ .someBlanks ++ .group 2 (.few 1 (· != '\x7b'))) ++ .blanks ++
    .one (· == '\x7b')

def aliasHead : Pattern :=
  .wordEdge ++ .opt (.lit "export" ++ .someBlanks) ++ .lit "type" ++ .someBlanks ++
    .group 1 .identifier ++ .blanks ++
    .opt (.lit "<" ++ .many 0 (fun c => c != '>' && c != '=') ++ .lit ">") ++ .blanks ++ .lit "="

def addInterface (t : List Char) (scope : TypeScope) (m : Match) : TypeScope :=
  match balancedInner? t (m.stop - 1) with
  | none => scope
  | some body =>
    let parents := ((m.text? t 2).map (splitTopLevel · [','])).getD []
    scope.insert (String.ofList (m.text t 1)) (.interface parents (Member.parseAll body))

def addAlias (t : List Char) (scope : TypeScope) (m : Match) : TypeScope :=
  let rest := t.drop m.stop
  let type := trim (rest.take ((Member.stop? rest).getD rest.length))
  let type := trim (type.reverse.dropWhile (· == ';')).reverse
  scope.insert (String.ofList (m.text t 1)) (.synonym type)

/-- Interfaces first, then aliases, each in order. -/
def parse (t : List Char) : TypeScope :=
  (aliasHead.findAll t).foldl (addAlias t) ((interfaceHead.findAll t).foldl (addInterface t) {})

def names (scope : TypeScope) : List String := scope.decls.map (·.1)

def isEmpty (scope : TypeScope) : Bool := scope.decls.isEmpty

def get? (scope : TypeScope) (name : String) : Option TypeDecl :=
  (scope.decls.find? (·.1 == name)).map (·.2)

def has (scope : TypeScope) (name : String) : Bool := (scope.get? name).isSome

def isInterface : TypeDecl → Bool
  | .interface _ _ => true
  | .synonym _ => false

/-- The preferred name if it is declared, else the first one that ends in `Props`, else the only
interface. -/
def propsTypeName? (scope : TypeScope) (preferred : Option (List Char)) : Option String :=
  let wanted := preferred.bind fun p =>
    let name := String.ofList (baseTypeName p)
    if scope.has name then some name else none
  let byEnding := scope.names.find? fun n => endsWith n.toList "Props".toList
  let only := match scope.decls.filter fun d => isInterface d.2 with
    | [d] => some d.1
    | _ => none
  (wanted.or byEnding).or only

def keysOf (args : List (List Char)) : List (List Char) :=
  ((args[1]?).map fun k => (splitTopLevel k ['|']).filterMap stringLiteral?).getD []

/-- Members of a type. `visiting` holds the names being resolved: one met again adds nothing. -/
def membersFrom (scope : TypeScope) : Nat → List (List Char) → List Char → List Member
  | 0, _, _ => []
  | fuel + 1, visiting, type =>
    let t := trim type
    if t.head? == some '\x7b' then Member.parseAll (groupInner t)
    else match genericParts? t with
    | some (wrapper, arguments) =>
      let args := splitTopLevel arguments [',']
      match args.head? with
      | none => []
      | some target =>
        let keys := keysOf args
        let named (m : Member) : Bool := keys.contains m.name.toList
        if wrapper == "Omit".toList then (membersFrom scope fuel visiting target).filter (!named ·)
        else if wrapper == "Pick".toList then (membersFrom scope fuel visiting target).filter named
        else if wrapper == "Partial".toList then
          (membersFrom scope fuel visiting target).map fun m => { m with optional := true }
        else if wrapper == "Required".toList then
          (membersFrom scope fuel visiting target).map fun m => { m with optional := false }
        else membersFrom scope fuel visiting wrapper
    | none =>
      let name := baseTypeName t
      if visiting.contains name then [] else
        let merged (types : List (List Char)) : List Member :=
          types.foldl (fun acc p => Member.merge acc (membersFrom scope fuel (name :: visiting) p)) []
        match scope.get? (String.ofList name) with
        | some (.interface parents members) => Member.merge (merged parents) members
        | some (.synonym text) => merged (splitTopLevel text ['&'])
        | none => []

def declLength : TypeDecl → Nat
  | .interface parents _ => parents.foldl (fun n p => max n p.length) 0
  | .synonym t => t.length

/-- Every step shortens a type or visits one more declaration, so this many steps are enough. -/
def stepBound (scope : TypeScope) (type : List Char) : Nat :=
  let longest := scope.decls.foldl (fun n d => max n (declLength d.2)) type.length
  (scope.decls.length + 2) * (longest + 2)

def membersOf (scope : TypeScope) (type : List Char) : List Member :=
  membersFrom scope (scope.stepBound type) [] type

/-- What a type text says about an attribute. -/
structure TypeInfo where
  types : List AttributeType := []
  enumValues : List String := []
  itemType : Option String := none
  nullable : Bool := false
  numericEnum : Bool := false

namespace TypeInfo

def addType (info : TypeInfo) (type : AttributeType) : TypeInfo :=
  if info.types.contains type then info else { info with types := info.types ++ [type] }

def addValue (info : TypeInfo) (value : String) : TypeInfo :=
  if info.enumValues.contains value then info
  else { info with enumValues := info.enumValues ++ [value] }

def merge (info other : TypeInfo) : TypeInfo :=
  let merged := other.enumValues.foldl addValue (other.types.foldl addType info)
  { merged with
    itemType := info.itemType.or other.itemType
    nullable := info.nullable || other.nullable
    numericEnum := info.numericEnum || other.numericEnum }

end TypeInfo

def isNodeType (t : List Char) : Bool :=
  ["ReactNode", "ReactElement", "JSX.Element", "ReactChild", "ReactText"].any fun n =>
    endsWith t n.toList

def primitive? (t : List Char) : Option AttributeType :=
  match String.ofList t with
  | "string" => some .string
  | "number" => some .number
  | "boolean" => some .boolean
  | "true" => some .boolean
  | "false" => some .boolean
  | "object" => some .object
  | "any" => some .object
  | "unknown" => some .object
  | _ => none

def isAbsence (t : List Char) : Bool :=
  ["undefined", "null", "void", "never"].any (t == ·.toList)

def isFunctionType (t : List Char) : Bool :=
  endsWith t "Handler".toList || t == "Function".toList

/-- Adds what a name of the scope stands for. The text of a synonym is classified by `behind`; without
it a synonym is an object. -/
def TypeInfo.addNamed (info : TypeInfo) (behind : Option (List Char → TypeInfo)) :
    Option TypeDecl → TypeInfo
  | some (.synonym text) =>
    match behind with
    | some classify => info.merge (classify text)
    | none => info.addType .object
  | some (.interface _ _) => info.addType .object
  | none => info.addType .string

def addPart (scope : TypeScope) (behind : Option (List Char → TypeInfo)) (info : TypeInfo)
    (part : List Char) : TypeInfo :=
  let p := stripOuterParens part
  if isAbsence p then { info with nullable := true } else
  match primitive? p with
  | some type => info.addType type
  | none =>
  if containsTopLevel p "=>".toList then info.addType .function else
  match stringLiteral? p with
  | some value => info.addValue (String.ofList value)
  | none =>
  if isDecimal p then { info.addValue (String.ofList p) with numericEnum := true } else
  match dropTail? "[]".toList p with
  | some item =>
    { info.addType .array with itemType := some (String.ofList (stripOuterParens item)) }
  | none =>
  match genericParts? p with
  | some (wrapper, args) =>
    if wrapper == "Array".toList || wrapper == "ReadonlyArray".toList then
      { info.addType .array with itemType := some (String.ofList (trim args)) }
    else if wrapper == "Record".toList || wrapper == "Map".toList then info.addType .object
    else if endsWith wrapper "Handler".toList then info.addType .function
    else info.addType .string
  | none =>
  if p.head? == some '\x7b' then info.addType .object
  else if isNodeType p || startsWith p "keyof ".toList then info.addType .string
  else if isFunctionType p then info.addType .function
  else info.addNamed behind (scope.get? (String.ofList (baseTypeName p)))

def classifyWith (scope : TypeScope) (behind : Option (List Char → TypeInfo)) (type : List Char) :
    TypeInfo :=
  let t := stripOuterParens type
  if containsTopLevel t "=>".toList then ({} : TypeInfo).addType .function
  else (splitTopLevel t ['|']).foldl (scope.addPart behind) {}

/-- What the text of a type says. Aliases are followed `depth` levels deep; one more is an object. -/
def classify (scope : TypeScope) : Nat → List Char → TypeInfo
  | 0 => scope.classifyWith none
  | depth + 1 => scope.classifyWith (some (scope.classify depth))

/-- Aliases behind aliases are followed eight levels deep. -/
def aliasDepth : Nat := 8

/-- Types named by the text come after `enum`; an enumeration alone is of numbers or strings. -/
def describe (scope : TypeScope) (member : Member) : Attribute :=
  let info := scope.classify aliasDepth member.type
  let start : List AttributeType := if info.enumValues.isEmpty then [] else [.enum]
  let types := info.types.foldl (fun acc t => if acc.contains t then acc else acc ++ [t]) start
  let types :=
    if types == [.enum] then types ++ [if info.numericEnum then .number else .string] else types
  { name := member.name
    types := if types.isEmpty then [.string] else types
    required := !member.optional && !info.nullable
    enumValues := info.enumValues
    description := member.description
    itemType := info.itemType }

/-- Attributes of a declared type: inherited members first, own ones in their place. -/
def attributesOf (scope : TypeScope) (name : String) : List Attribute :=
  (scope.membersOf name.toList).map scope.describe

def memberNames (scope : TypeScope) (name : String) : List String :=
  (scope.membersOf name.toList).map (·.name)

def propsAttributes (scope : TypeScope) (preferred : Option (List Char)) : List Attribute :=
  ((scope.propsTypeName? preferred).map scope.attributesOf).getD []

end TypeScope

end JsxToJinja
