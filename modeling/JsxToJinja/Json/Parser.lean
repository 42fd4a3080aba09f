import JsxToJinja.Json.Written

/-! Reading of JSON text. A text that breaks the grammar is refused as a whole; a part that keeps it
but has no value is left unread. -/
namespace JsxToJinja.Json

def isSpace (c : Char) : Bool := c == ' ' || c == '\n' || c == '\t' || c == '\r'

def skipSpace (t : List Char) : List Char := t.dropWhile isSpace

def hexValue? (c : Char) : Option Nat :=
  if c.isDigit then some (c.toNat - 48)
  else if 'a' ≤ c && c ≤ 'f' then some (c.toNat - 87)
  else if 'A' ≤ c && c ≤ 'F' then some (c.toNat - 55)
  else none

def hex4? : List Char → Option (Nat × List Char)
  | a :: b :: c :: d :: t => do
    let n := ((← hexValue? a) * 16 + (← hexValue? b)) * 256 + (← hexValue? c) * 16 + (← hexValue? d)
    some (n, t)
  | _ => none

/-- A code unit escape. The two halves of a surrogate pair stand next to each other; a half on its
own is no character. -/
def unicodeEscape? (t : List Char) : Option (Option Char × List Char) := do
  let (n, t) ← hex4? t
  if 0xD800 ≤ n && n < 0xDC00 then
    match t with
    | '\\' :: 'u' :: r =>
      let (m, r) ← hex4? r
      if 0xDC00 ≤ m && m < 0xE000 then
        some (some (Char.ofNat (0x10000 + (n - 0xD800) * 0x400 + (m - 0xDC00))), r)
      else some (none, t)
    | _ => some (none, t)
  else if 0xDC00 ≤ n && n < 0xE000 then some (none, t)
  else some (some (Char.ofNat n), t)

/-- Character that a one-letter escape stands for. -/
def simpleEscape? (c : Char) : Option Char :=
  match c.toNat with
  | 34 => some '\x22'
  | 92 => some '\\'
  | 47 => some '/'
  | 98 => some '\x08'
  | 102 => some '\x0c'
  | 110 => some '\n'
  | 114 => some '\r'
  | 116 => some '\t'
  | _ => none

def extended (read : Option (List Char)) (c : Option Char) : Option (List Char) := do
  some ((← c) :: (← read))

/-- The rest of a string after its opening quote. Control characters have to be escaped. The string
is absent if an escape in it was no character. -/
def stringTail? : Nat → Option (List Char) → List Char → Option (Option String × List Char)
  | 0, _, _ => none
  | _ + 1, _, [] => none
  | fuel + 1, read, c :: t =>
    if c == '\x22' then some (read.map fun cs => String.ofList cs.reverse, t)
    else if c == '\\' then
      match t with
      | 'u' :: t => do
        let (c, t) ← unicodeEscape? t
        stringTail? fuel (extended read c) t
      | c :: t => do
        let c ← simpleEscape? c
        stringTail? fuel (extended read c) t
      | [] => none
    else if c.toNat < 32 then none
    else stringTail? fuel (extended read c) t

def string? (t : List Char) : Option (Option String × List Char) :=
  stringTail? (t.length + 1) (some []) t

/-- An array or object that `depth` still lets open. -/
def within (depth : Nat) (v : Written) : Written := if depth ≤ 1 then .unread else v

mutual

/-- A value at the front of a text. `depth` counts the arrays and objects that may still open. -/
def readValue? : Nat → Nat → List Char → Option (Written × List Char)
  | 0, _, _ => none
  | fuel + 1, depth, t =>
    match skipSpace t with
    | 'n' :: 'u' :: 'l' :: 'l' :: r => some (.null, r)
    | 't' :: 'r' :: 'u' :: 'e' :: r => some (.bool true, r)
    | 'f' :: 'a' :: 'l' :: 's' :: 'e' :: r => some (.bool false, r)
    | '\x22' :: r => (string? r).map fun (s, r) => (s.elim .unread .str, r)
    | '[' :: r =>
      match skipSpace r with
      | ']' :: r => some (within depth (.arr []), r)
      | r => (readItems? fuel (depth - 1) r).map fun (items, r) => (within depth (.arr items), r)
    | '\x7b' :: r =>
      match skipSpace r with
      | '\x7d' :: r => some (within depth (.obj []), r)
      | r =>
        (readFields? fuel (depth - 1) r).map fun (fields, r) => (within depth (.ofFields fields), r)
    | r => (Number.read? r).map fun (n, r) => (n.elim .unread .num, r)

def readItems? : Nat → Nat → List Char → Option (List Written × List Char)
  | 0, _, _ => none
  | fuel + 1, depth, t => do
    let (v, t) ← readValue? fuel depth t
    match skipSpace t with
    | ',' :: t =>
      let (rest, t) ← readItems? fuel depth t
      some (v :: rest, t)
    | ']' :: t => some ([v], t)
    | _ => none

def readFields? : Nat → Nat → List Char → Option (List (Option String × Written) × List Char)
  | 0, _, _ => none
  | fuel + 1, depth, t =>
    match skipSpace t with
    | '\x22' :: t => do
      let (key, t) ← string? t
      match skipSpace t with
      | ':' :: t =>
        let (v, t) ← readValue? fuel depth t
        match skipSpace t with
        | ',' :: t =>
          let (rest, t) ← readFields? fuel depth t
          some ((key, v) :: rest, t)
        | '\x7d' :: t => some ([(key, v)], t)
        | _ => none
      | _ => none
    | _ => none

end

/-- Fewer arrays and objects than this may be nested. -/
def maxDepth : Nat := 128

def Written.parse? (s : String) : Option Written :=
  let t := s.toList
  match readValue? (t.length + 1) maxDepth t with
  | some (v, rest) => if (skipSpace rest).isEmpty then some v else none
  | none => none

def parse? (s : String) : Option Json := (Written.parse? s).bind Written.value?

end JsxToJinja.Json
