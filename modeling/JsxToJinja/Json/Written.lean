import JsxToJinja.Json.Basic

/-! JSON as a text holds it, before anything is known about what the text is for. A part of a text
can be well formed and still have no value; it does no harm where nobody asks for one. -/
namespace JsxToJinja.Json

/-- Fields stay in order, repeated keys included. `unread` is a part without a value: a string or a
key with half a surrogate pair, a number too large for a double, nesting that is too deep. -/
inductive Written where
  | null
  | bool (value : Bool)
  | num (value : Number)
  | str (value : String)
  | arr (items : List Written)
  | obj (fields : List (String × Written))
  | unread
deriving Repr, BEq, Inhabited

namespace Written

def ofFields (fields : List (Option String × Written)) : Written :=
  match fields.mapM fun f => f.1.map (·, f.2) with
  | some fields => .obj fields
  | none => .unread

mutual

/-- The value of all that is written. Fields are sorted; of repeated keys the last one stays. -/
def value? : Written → Option Json
  | .null => some .null
  | .bool b => some (.bool b)
  | .num n => some (.num n)
  | .str s => some (.str s)
  | .arr items => (itemValues? items).map .arr
  | .obj fields => (fieldValues? fields).map .object
  | .unread => none

def itemValues? : List Written → Option (List Json)
  | [] => some []
  | v :: rest => do some ((← value? v) :: (← itemValues? rest))

def fieldValues? : List (String × Written) → Option (List (String × Json))
  | [] => some []
  | (k, v) :: rest => do some ((k, ← value? v) :: (← fieldValues? rest))

end

/-- Whether no part is without a value. -/
def isReadable (v : Written) : Bool := v.value?.isSome

end Written

end JsxToJinja.Json
