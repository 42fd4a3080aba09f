import JsxToJinja.Json.Basic

/-! JSON text, on one line or indented by two spaces. -/
namespace JsxToJinja.Json

def hexDigit (n : Nat) : Char := if n < 10 then Char.ofNat (48 + n) else Char.ofNat (87 + n)

/-- Quotes, backslashes and control characters are escaped; all else stands as it is. -/
def escapeChar (c : Char) : List Char :=
  match c.toNat with
  | 34 => ['\\', '\x22']
  | 92 => ['\\', '\\']
  | 8 => ['\\', 'b']
  | 9 => ['\\', 't']
  | 10 => ['\\', 'n']
  | 12 => ['\\', 'f']
  | 13 => ['\\', 'r']
  | n => if n < 32 then ['\\', 'u', '0', '0', hexDigit (n / 16), hexDigit (n % 16)] else [c]

def quoted (s : String) : String :=
  "\"" ++ String.ofList (s.toList.flatMap escapeChar) ++ "\""

mutual

def compact : Json → String
  | .null => "null"
  | .bool b => if b then "true" else "false"
  | .num n => n.text
  | .str s => quoted s
  | .arr items => "[" ++ ",".intercalate (compactItems items) ++ "]"
  | .obj fields => "\x7b" ++ ",".intercalate (compactFields fields) ++ "\x7d"

def compactItems : List Json → List String
  | [] => []
  | v :: rest => compact v :: compactItems rest

def compactFields : List (String × Json) → List String
  | [] => []
  | (k, v) :: rest => (quoted k ++ ":" ++ compact v) :: compactFields rest

end

def indentOf (depth : Nat) : String := String.ofList (List.replicate (2 * depth) ' ')

def block (opening closing : String) (depth : Nat) (entries : List String) : String :=
  let inner := indentOf (depth + 1)
  opening ++ "\n" ++ ",\n".intercalate (entries.map (inner ++ ·)) ++ "\n" ++ indentOf depth ++ closing

mutual

/-- Text with one entry a line; an empty array or object stays on its line. -/
def prettyAt (depth : Nat) : Json → String
  | .null => "null"
  | .bool b => if b then "true" else "false"
  | .num n => n.text
  | .str s => quoted s
  | .arr [] => "[]"
  | .arr (v :: rest) => block "[" "]" depth (prettyAt (depth + 1) v :: prettyItems (depth + 1) rest)
  | .obj [] => "\x7b\x7d"
  | .obj ((k, v) :: rest) =>
    block "\x7b" "\x7d" depth
      ((quoted k ++ ": " ++ prettyAt (depth + 1) v) :: prettyFields (depth + 1) rest)

def prettyItems (depth : Nat) : List Json → List String
  | [] => []
  | v :: rest => prettyAt depth v :: prettyItems depth rest

def prettyFields (depth : Nat) : List (String × Json) → List String
  | [] => []
  | (k, v) :: rest => (quoted k ++ ": " ++ prettyAt depth v) :: prettyFields depth rest

end

def pretty (v : Json) : String := prettyAt 0 v

end JsxToJinja.Json
