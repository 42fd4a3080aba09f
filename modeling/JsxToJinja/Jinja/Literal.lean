import JsxToJinja.Component.Attribute
import JsxToJinja.Jinja.Expr

/-! Values as template literals, and the values that attributes fall back to. -/
namespace JsxToJinja.Jinja

mutual

def literal : Json → String
  | .null => "none"
  | .bool b => if b then "true" else "false"
  | .num n => n.text
  | .str s => quote s
  | .arr items => "[" ++ ", ".intercalate (literals items) ++ "]"
  | .obj fields => "\x7b" ++ ", ".intercalate (literalFields fields) ++ "\x7d"

def literals : List Json → List String
  | [] => []
  | v :: rest => literal v :: literals rest

def literalFields : List (String × Json) → List String
  | [] => []
  | (k, v) :: rest => (quote k ++ ": " ++ literal v) :: literalFields rest

end

/-- What a template takes for an attribute that is not given. A default of null counts as none. -/
def defaultValue? (a : Attribute) : Option Json :=
  match a.actualDefault? with
  | some v => if v.isNull then none else some v
  | none =>
    if a.isBoolean then some (.bool false)
    else if a.hasType .number then none
    else match a.enumValues.head? with
      | some first => some (.str first)
      | none => if a.isArray then some (.arr []) else none

end JsxToJinja.Jinja
