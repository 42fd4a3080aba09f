import JsxToJinja.Json.Written

/-! Reading of records, lists and maps out of written JSON. A value of the wrong kind has no reading;
what stands under a key that a record does not name is never looked at. -/
namespace JsxToJinja.Json.Written

def str? : Written → Option String
  | .str s => some s
  | _ => none

def bool? : Written → Option Bool
  | .bool b => some b
  | _ => none

def nat? : Written → Option Nat
  | .num (.int n) => if 0 ≤ n then some n.toNat else none
  | _ => none

/-- The fields of an object by name. It may hold other fields but none of these twice. -/
def fields? (names : List String) : Written → Option (String → Option Written)
  | .obj fields =>
    if names.any fun n => 1 < fields.countP (·.1 == n) then none
    else some fun n => (fields.find? (·.1 == n)).map (·.2)
  | _ => none

/-- The fields of a record by name. An array gives them by position, at least the first `least` and
no more than there are names. -/
def record? (names : List String) (v : Written) (least : Nat := 0) :
    Option (String → Option Written) :=
  match v with
  | .arr items =>
    if items.length < least || names.length < items.length then none
    else some fun n => (names.idxOf? n).bind fun i => items[i]?
  | v => v.fields? names

def list? (item : Written → Option α) : Written → Option (List α)
  | .arr items => items.mapM item
  | _ => none

/-- Every value has to be readable, also one that a later value under its key replaces. -/
def dict? (value : Written → Option α) : Written → Option (Dict α)
  | .obj fields =>
    (fields.mapM fun (f : String × Written) => (value f.2).map fun a => (f.1, a)).map Dict.ofList
  | _ => none

/-- The name of a choice: a text, or an object with that one key and null under it. -/
def choice? : Written → Option String
  | .str name => some name
  | .obj [(name, .null)] => some name
  | _ => none

def strings? : Written → Option (List String) := list? str?

/-- A missing field takes the default. -/
def orDefault (default : α) (read : Written → Option α) : Option Written → Option α
  | some v => read v
  | none => some default

/-- A missing field and null are both absent. -/
def optional? (read : Written → Option α) : Option Written → Option (Option α)
  | none => some none
  | some .null => some none
  | some v => (read v).map some

end JsxToJinja.Json.Written
