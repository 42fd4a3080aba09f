import JsxToJinja.Base.Resolve
import JsxToJinja.Component.Source

/-! Why a component cannot be converted. -/
namespace JsxToJinja

inductive ConvertError where
  /-- A file that has to be there is not. -/
  | missingInput (what path : String)
  | structural (component reason : String)
  /-- A component that renders itself, through the components in between. -/
  | cycle (chain : List String)
  | parse (cause : ParseError)
  | resolve (cause : ResolveError)
  /-- Without a reason the text of the file is at fault. -/
  | customization (path : String) (reason : Option String)
  | unknownToken (reference : String)
  | unreadable (path : String)
  /-- Text that is no JSON of the expected shape. -/
  | json
deriving Repr, DecidableEq

namespace ConvertError

def message : ConvertError → String
  | missingInput what path => what ++ " not found: " ++ path
  | structural component reason => "Cannot convert " ++ component ++ ": " ++ reason
  | cycle chain => "Circular nested conversion: " ++ " -> ".intercalate chain
  | parse cause => cause.message
  | resolve cause => cause.message
  | customization path reason =>
    "Invalid customization " ++ path ++ ": " ++ reason.getD "invalid JSON"
  | unknownToken reference => "Unknown token reference: " ++ reference
  | unreadable path => "IO error on " ++ path ++ ": " ++ FileTree.missing path
  | json => "JSON error: invalid JSON"

end ConvertError

end JsxToJinja
