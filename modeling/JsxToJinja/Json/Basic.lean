import JsxToJinja.Dict
import JsxToJinja.Number.Basic

/-! JSON values. An object used as a map holds its fields sorted by key, each key once; one made to
be written holds them in the order of the text. -/
namespace JsxToJinja

inductive Json where
  | null
  | bool (value : Bool)
  | num (value : Number)
  | str (value : String)
  | arr (items : List Json)
  | obj (fields : List (String × Json))
deriving Repr, Inhabited

/-- Fields sorted by key, each key once. -/
abbrev Fields := Dict Json

namespace Json

mutual

/-- Equal values of one kind, with the fields of objects in the same order. -/
def same : Json → Json → Bool
  | .null, .null => true
  | .bool a, .bool b => a == b
  | .num a, .num b => a == b
  | .str a, .str b => a == b
  | .arr a, .arr b => sameItems a b
  | .obj a, .obj b => sameFields a b
  | _, _ => false

def sameItems : List Json → List Json → Bool
  | [], [] => true
  | v :: vs, w :: ws => same v w && sameItems vs ws
  | _, _ => false

def sameFields : List (String × Json) → List (String × Json) → Bool
  | [], [] => true
  | (k, v) :: vs, (l, w) :: ws => k == l && same v w && sameFields vs ws
  | _, _ => false

end

instance : BEq Json := ⟨same⟩

def int (n : Int) : Json := .num (.int n)

def nat (n : Nat) : Json := int n

def ofOption (f : α → Json) : Option α → Json
  | some a => f a
  | none => .null

def strings (items : List String) : Json := .arr (items.map .str)

def object (entries : List (String × Json)) : Json := .obj (Dict.ofList entries)

/-- Field of an object; the last one counts when a key is repeated. -/
def get? : Json → String → Option Json
  | .obj fields, key => (fields.reverse.find? (·.1 == key)).map (·.2)
  | _, _ => none

def isNull : Json → Bool
  | .null => true
  | _ => false

def str? : Json → Option String
  | .str s => some s
  | _ => none

def bool? : Json → Option Bool
  | .bool b => some b
  | _ => none

def arr? : Json → Option (List Json)
  | .arr items => some items
  | _ => none

def obj? : Json → Option (List (String × Json))
  | .obj fields => some fields
  | _ => none

def nat? : Json → Option Nat
  | .num (.int n) => if 0 ≤ n then some n.toNat else none
  | _ => none

end Json

end JsxToJinja
