import JsxToJinja.Code.Scan

/-! Identifiers and member paths. -/
namespace JsxToJinja.Code
open JsxToJinja.Text

def isIdentifierStart (c : Char) : Bool := c.isAlpha || c == '_' || c == '$'

def isIdentifierChar (c : Char) : Bool := c.isAlphanum || c == '_' || c == '$'

/-- ASCII identifiers only. -/
def isIdentifier : List Char → Bool
  | [] => false
  | c :: t => isIdentifierStart c && t.all isIdentifierChar

def isMemberPath (t : List Char) : Bool :=
  let t := trim t
  !t.isEmpty && (splitOn ['.'] (replaceAll ['?', '.'] ['.'] t)).all isIdentifier

end JsxToJinja.Code
