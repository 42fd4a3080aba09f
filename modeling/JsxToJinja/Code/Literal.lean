import JsxToJinja.Code.Identifier
import JsxToJinja.Json.Basic

/-! String literals, template literals and the values that literals stand for. -/
namespace JsxToJinja.Code
open JsxToJinja.Text

/-- Number of characters up to the closing quote; the flag says that a backslash came before. -/
def closeFrom (quote : Char) : Bool → Nat → List Char → Option Nat
  | _, _, [] => none
  | true, i, _ :: t => closeFrom quote false (i + 1) t
  | false, i, c :: t =>
    if c == '\\' then closeFrom quote true (i + 1) t
    else if c == quote then some i
    else closeFrom quote false (i + 1) t

def literalClose? : List Char → Option Nat
  | [] => none
  | c :: t => if isQuote c then closeFrom c false 1 t else none

/-- The quote of a trimmed text that is exactly one literal. -/
def singleLiteral? (t : List Char) : Option Char :=
  let t := trim t
  if 2 ≤ t.length && literalClose? t == some (t.length - 1) then t.head? else none

/-- A backslash stands for the character after it, `\n` for a line feed and `\t` for a tab. One at
the end is dropped. -/
def unescape : List Char → List Char
  | [] => []
  | [c] => if c == '\\' then [] else [c]
  | c :: d :: t =>
    if c == '\\' then (if d == 'n' then '\n' else if d == 't' then '\t' else d) :: unescape t
    else c :: unescape (d :: t)

def interpolation : List Char := ['$', '\x7b']

/-- Value of a string literal. A backtick literal with an interpolation has none. -/
def stringLiteral? (t : List Char) : Option (List Char) := do
  let t := trim t
  let quote ← singleLiteral? t
  let inner := groupInner t
  if quote == '\x60' && contains inner interpolation then none else some (unescape inner)

/-- A comparison operand as a value: quoted text is a string even when it looks like a number, and
what is neither quoted nor a number stays text. -/
def literalValue (t : List Char) : Json :=
  let t := trim t
  match stringLiteral? t with
  | some s => .str (String.ofList s)
  | none =>
    match Number.parse? t with
    | some n => .num n
    | none => .str (String.ofList t)

inductive TemplatePart where
  | text (text : String)
  | expr (code : String)
deriving Repr, DecidableEq

/-- A backtick literal with at least one interpolation. -/
def isTemplateLiteral (t : List Char) : Bool :=
  singleLiteral? t == some '\x60' && contains t interpolation

/-- Puts the text read so far, last character first, in front of the parts. -/
def flushText (read : List Char) (parts : List TemplatePart) : List TemplatePart :=
  if read.isEmpty then parts else .text (String.ofList read.reverse) :: parts

/-- Parts of the text inside the quotes; the next so many characters are already read. -/
def partsFrom : Nat → List Char → List Char → Option (List TemplatePart)
  | _, read, [] => some (flushText read [])
  | skip + 1, read, _ :: t => partsFrom skip read t
  | 0, read, c :: t =>
    if startsWith (c :: t) interpolation then do
      let n ← balancedLength? t
      let parts ← partsFrom (n + 1) [] t
      some (flushText read (.expr (String.ofList (trim (slice t 1 n))) :: parts))
    else partsFrom 0 (c :: read) t

/-- Literal and interpolated parts of a backtick literal. An interpolation that does not close spoils
the whole. -/
def templateParts? (t : List Char) : Option (List TemplatePart) :=
  let t := trim t
  if singleLiteral? t == some '\x60' then partsFrom 0 [] (groupInner t) else none

def stripTypeAssertion (t : List Char) : List Char :=
  let t := trim t
  match findLastTopLevel? t " as ".toList with
  | some i => if isMemberPath (trim (t.drop (i + 4))) then trim (t.take i) else t
  | none => t

/-- Decimal notation with optional parts: digits on either side of the point are enough. -/
def readDecimal? (t : List Char) : Option Number := do
  let (negative, t) := match t with
    | '-' :: r => (true, r)
    | _ => (false, t)
  let ds := t.takeWhile Char.isDigit
  let rest := t.dropWhile Char.isDigit
  let (fs, rest) := match rest with
    | '.' :: r => (r.takeWhile Char.isDigit, r.dropWhile Char.isDigit)
    | _ => ([], rest)
  if ds.isEmpty && fs.isEmpty then none else
    let e ← exponent? rest
    let digits := Number.digitsValue (ds ++ fs)
    let place := e - (fs.length : Int)
    let lead := place + ((toString digits).length : Int)
    if digits = 0 || lead < -400 then some (.double ⟨negative, 0⟩)
    else if 400 < lead then none
    else (Double.ofDecimal? digits place).map fun m => .double ⟨negative, m⟩
where
  exponent? : List Char → Option Int
    | [] => some 0
    | c :: t =>
      if c == 'e' || c == 'E' then
        let (minus, t) := match t with
          | '-' :: r => (true, r)
          | '+' :: r => (false, r)
          | _ => (false, t)
        if t.isEmpty || !t.all Char.isDigit then none
        else some (if minus then -(Number.digitsValue t : Int) else Number.digitsValue t)
      else none

/-- Text that reads as a decimal, a sign in front and the names of infinity and of no number
included. -/
def isDecimal (t : List Char) : Bool :=
  let t := match t with
    | '+' :: r => r
    | '-' :: r => r
    | _ => t
  let ds := t.takeWhile Char.isDigit
  let rest := t.dropWhile Char.isDigit
  let (fs, rest) := match rest with
    | '.' :: r => (r.takeWhile Char.isDigit, r.dropWhile Char.isDigit)
    | _ => ([], rest)
  (!(ds.isEmpty && fs.isEmpty) && (readDecimal?.exponent? rest).isSome) ||
    ["inf", "infinity", "nan"].contains (String.ofList (t.map Char.toLower))

def readInteger? (t : List Char) : Option Number :=
  let (negative, ds) := match t with
    | '-' :: r => (true, r)
    | _ => (false, t)
  if ds.isEmpty || !ds.all Char.isDigit then none else
    let n : Int := if negative then -(Number.digitsValue ds : Int) else Number.digitsValue ds
    if Number.leastWord ≤ n && n < -Number.leastWord then some (.int n) else none

/-- A number as code writes it: underscores are ignored, whole numbers of 64 bits stay whole. -/
def readNumber? (t : List Char) : Option Number :=
  let t := t.filter (· != '_')
  match t with
  | [] => none
  | c :: _ =>
    if c.isDigit || c == '-' || c == '.' then
      match readInteger? t with
      | some n => some n
      | none => readDecimal? t
    else none

mutual

/-- Reads a value with at most so many nested ones. -/
def literalWithin? : Nat → List Char → Option Json
  | 0, _ => none
  | fuel + 1, text =>
    let t := stripTypeAssertion (stripOuterParens text)
    match stringLiteral? t with
    | some s => some (.str (String.ofList s))
    | none =>
      if t == "true".toList then some (.bool true)
      else if t == "false".toList then some (.bool false)
      else if t == "null".toList || t == "undefined".toList then some .null
      else match readNumber? t with
        | some n => some (.num n)
        | none =>
          if isGroup '[' t then
            ((splitTopLevel (groupInner t) [',']).mapM (literalWithin? fuel)).map .arr
          else if isGroup '\x7b' t then some (.obj (entriesWithin fuel (groupInner t)))
          else none

/-- Reads the entries of an object with at most so many nested values. -/
def entriesWithin : Nat → List Char → Fields
  | 0, _ => []
  | fuel + 1, inner =>
    (splitTopLevel inner [',']).foldl (fun fields entry =>
      if startsWith entry "...".toList then fields else
        match findTopLevel? entry [':'] with
        | none => fields
        | some colon =>
          let key := trim (entry.take colon)
          let key := (stringLiteral? key).getD key
          if key.isEmpty then fields else
            match literalWithin? fuel (entry.drop (colon + 1)) with
            | some v => fields.insert (String.ofList key) v
            | none => fields) []

end

/-- Value of a literal: strings, numbers, booleans, `null` and `undefined`, arrays and objects. Other
code has none. -/
def literal? (t : List Char) : Option Json := literalWithin? (t.length + 2) t

/-- Entries of the inside of an object literal. Entries whose value is no literal are left out. -/
def objectEntries (inner : List Char) : Fields := entriesWithin (inner.length + 2) inner

end JsxToJinja.Code
