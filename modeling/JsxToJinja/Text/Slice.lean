import JsxToJinja.Text.Blank

/-! Cuts of a text by position and by the places where another text occurs in it. -/
namespace JsxToJinja.Text

/-- Characters from `start` up to, not including, `stop`. -/
def slice (t : List Char) (start stop : Nat) : List Char := (t.take stop).drop start

def startsWith (t head : List Char) : Bool := head.isPrefixOf t

def endsWith (t tail : List Char) : Bool := tail.isSuffixOf t

/-- First place where `needle` starts. -/
def find? (needle : List Char) : List Char → Option Nat
  | [] => if needle.isEmpty then some 0 else none
  | c :: t => if startsWith (c :: t) needle then some 0 else (find? needle t).map (· + 1)

/-- Last place where `needle` starts. -/
def findLast? (needle : List Char) : List Char → Option Nat
  | [] => if needle.isEmpty then some 0 else none
  | c :: t =>
    match findLast? needle t with
    | some i => some (i + 1)
    | none => if startsWith (c :: t) needle then some 0 else none

def contains (t needle : List Char) : Bool := (find? needle t).isSome

/-- The piece read so far comes last character first; the next `skip` characters belong to a
separator. -/
def piecesFrom (sep : List Char) : Nat → List Char → List Char → List (List Char)
  | _, piece, [] => [piece.reverse]
  | skip + 1, piece, _ :: t => piecesFrom sep skip piece t
  | 0, piece, c :: t =>
    if startsWith (c :: t) sep then piece.reverse :: piecesFrom sep (sep.length - 1) [] t
    else piecesFrom sep 0 (c :: piece) t

/-- Pieces between the occurrences of a separator that is not empty. Empty pieces are kept. -/
def splitOn (sep t : List Char) : List (List Char) := piecesFrom sep 0 [] t

def replaceAll (old new t : List Char) : List Char := new.intercalate (splitOn old t)

def endLine (line : List Char) : List Char :=
  match line with
  | '\r' :: rest => rest.reverse
  | _ => line.reverse

def linesFrom : List Char → List Char → List (List Char)
  | [], [] => []
  | line, [] => [line.reverse]
  | line, c :: t => if c == '\n' then endLine line :: linesFrom [] t else linesFrom (c :: line) t

/-- Lines without their ends. A carriage return before a line feed belongs to the line end, and a
text that ends in a line feed has no empty last line. -/
def lines (t : List Char) : List (List Char) := linesFrom [] t

/-- Drops `head` from the front as long as it stands there. -/
def dropRepeated (head : List Char) (t : List Char) : List Char :=
  go t.length t
where
  go : Nat → List Char → List Char
    | 0, t => t
    | fuel + 1, t =>
      if head.isEmpty then t else if startsWith t head then go fuel (t.drop head.length) else t

def dropHead? (head t : List Char) : Option (List Char) :=
  if startsWith t head then some (t.drop head.length) else none

def dropTail? (tail t : List Char) : Option (List Char) :=
  if endsWith t tail then some (t.take (t.length - tail.length)) else none

/-- Parts before and after the first occurrence of `sep`. -/
def splitOnce? (sep t : List Char) : Option (List Char × List Char) :=
  (find? sep t).map fun i => (t.take i, t.drop (i + sep.length))

def byteLength : List Char → Nat
  | [] => 0
  | c :: t => c.utf8Size + byteLength t

def byteOffset (t : List Char) (i : Nat) : Nat := byteLength (t.take i)

/-- Position of the character that starts at a byte offset, or the length at the end of the text.
An offset inside a character has none. -/
def position? : List Char → Nat → Option Nat
  | _, 0 => some 0
  | [], _ + 1 => none
  | c :: t, n + 1 =>
    if c.utf8Size ≤ n + 1 then (position? t (n + 1 - c.utf8Size)).map (· + 1) else none

end JsxToJinja.Text
