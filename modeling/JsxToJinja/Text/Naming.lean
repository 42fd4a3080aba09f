import JsxToJinja.Text.Blank
import JsxToJinja.Text.LetterCase
import JsxToJinja.Text.Letters

/-! Spellings of component names. -/
namespace JsxToJinja.Text

def startsWordAt (before : Option Char) (next : Option Char) : Bool :=
  before.any (fun c => isLowercase c || c.isDigit) || (before.any isUppercase && next.any isLowercase)

/-- `written` is the result so far, last character first. -/
def kebabFrom (before : Option Char) (written : List Char) : List Char → List Char
  | [] => written
  | c :: t =>
    let inWord := !written.isEmpty && written.head? != some '-'
    if c == '_' || c == ' ' || c == '-' then
      kebabFrom (some c) (if inWord then '-' :: written else written) t
    else if isUppercase c then
      let written := if inWord && startsWordAt before t.head? then '-' :: written else written
      kebabFrom (some c) ((lowercase c).reverse ++ written) t
    else kebabFrom (some c) (c :: written) t

/-- Lower case words joined by single hyphens: a capital starts a word after a lower case letter or a
digit, and before a lower case letter inside a row of capitals. -/
def kebab (name : List Char) : List Char :=
  let written := kebabFrom none [] name
  ((written.dropWhile (· == '-')).reverse).dropWhile (· == '-')

def kebabCase (name : String) : String := String.ofList (kebab name.toList)

/-- An ASCII capital followed by ASCII letters, digits and underscores. -/
def isPascalCase (name : String) : Bool :=
  match name.toList with
  | [] => false
  | c :: t => c.isUpper && t.all fun c => c.isAlphanum || c == '_'

/-- Tag under which templates use a component. -/
def componentTag (name : String) : String := "c-" ++ kebabCase name

def titleFrom (inWord : Bool) : List Char → List Char
  | [] => []
  | c :: t =>
    if isAlphabetic c then (if inWord then lowercase c else uppercase c) ++ titleFrom true t
    else c :: titleFrom false t

/-- The first letter of every row of letters in upper case, the others in lower case. -/
def titleCase (text : String) : String := String.ofList (titleFrom false text.toList)

end JsxToJinja.Text
