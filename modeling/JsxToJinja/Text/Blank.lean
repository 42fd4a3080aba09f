/-! Blank characters and the cuts made at them. -/
namespace JsxToJinja.Text

/-- The code points with the Unicode property White_Space. -/
def isBlank (c : Char) : Bool :=
  let n := c.toNat
  (9 ≤ n && n ≤ 13) || n == 32 || n == 133 || n == 160 || n == 5760 ||
    (8192 ≤ n && n ≤ 8202) || n == 8232 || n == 8233 || n == 8239 || n == 8287 || n == 12288

def trimStart (t : List Char) : List Char := t.dropWhile isBlank

def trimEnd (t : List Char) : List Char := (t.reverse.dropWhile isBlank).reverse

def trim (t : List Char) : List Char := trimEnd (trimStart t)

/-- Words of a text; the first one begins with what is read, last character first. -/
def wordsFrom : List Char → List Char → List (List Char)
  | word, [] => if word.isEmpty then [] else [word.reverse]
  | word, c :: t =>
    if isBlank c then
      if word.isEmpty then wordsFrom [] t else word.reverse :: wordsFrom [] t
    else wordsFrom (c :: word) t

/-- The maximal stretches without a blank, in order. -/
def words (t : List Char) : List (List Char) := wordsFrom [] t

def tokens (s : String) : List String := (words s.toList).map String.ofList

/-- Runs of blanks become one space and the ends carry none. -/
def collapse (t : List Char) : List Char := [' '].intercalate (words t)

end JsxToJinja.Text
