import JsxToJinja.Code.Scan

/-! Removal of comments. -/
namespace JsxToJinja.Code
open JsxToJinja.Text

/-- Where removal of comments stands in a text: `opening` waits for the star of a comment that has
begun, `closing` for the slash of one that ends. -/
inductive CommentMode where
  | code
  | quoted (quote : Char)
  | escaped (quote : Char)
  | line
  | opening
  | block
  | closing
deriving Repr, DecidableEq

/-- Copies a text from a mode on. -/
def stripCommentsFrom : CommentMode → List Char → List Char
  | _, [] => []
  | .escaped q, c :: t => c :: stripCommentsFrom (.quoted q) t
  | .quoted q, c :: t =>
    if c == '\\' then c :: stripCommentsFrom (.escaped q) t
    else if c == q then c :: stripCommentsFrom .code t
    else c :: stripCommentsFrom (.quoted q) t
  | .code, c :: t =>
    if isQuote c then c :: stripCommentsFrom (.quoted c) t
    else if startsWith (c :: t) ['/', '/'] then stripCommentsFrom .line t
    else if startsWith (c :: t) ['/', '*'] then stripCommentsFrom .opening t
    else c :: stripCommentsFrom .code t
  | .line, c :: t =>
    if c == '\n' then c :: stripCommentsFrom .code t else stripCommentsFrom .line t
  | .opening, _ :: t => stripCommentsFrom .block t
  | .block, c :: t =>
    if startsWith (c :: t) ['*', '/'] then stripCommentsFrom .closing t
    else if c == '\n' then c :: stripCommentsFrom .block t
    else stripCommentsFrom .block t
  | .closing, _ :: t => stripCommentsFrom .code t

/-- Drops `//` and block comments outside literals. Line breaks inside a block comment stay, so every
kept character stays on its line. -/
def stripComments (t : List Char) : List Char := stripCommentsFrom .code t

end JsxToJinja.Code
