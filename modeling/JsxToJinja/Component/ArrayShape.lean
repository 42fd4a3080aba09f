import JsxToJinja.Component.Nested

/-! The shape of the items of array attributes, and the nested component that it fits. -/
namespace JsxToJinja

inductive ItemKind where
  | object
  | string
  | number
deriving Repr, DecidableEq

def ItemKind.text : ItemKind → String
  | object => "object"
  | string => "string"
  | number => "number"

structure ShapeMatch where
  name : String
  tagName : String
  className : String
  /-- Magnitude of a positive double. -/
  score : Nat
deriving Repr, DecidableEq

structure ArrayShape where
  array : String
  kind : ItemKind
  /-- Keys of an item, in order. -/
  itemProps : List String := []
  component : Option ShapeMatch := none
deriving Repr, DecidableEq

namespace ShapeMatch

def share (weightTenths shared total : Nat) : Nat :=
  let weight := (Double.ofDecimal? weightTenths (-1)).getD 0
  let count := (Double.nearest? shared 1).getD 0
  let size := (Double.nearest? total 1).getD 0
  (Double.div? ((Double.mul? weight count).getD 0) size).getD 0

/-- Seven tenths of the share in the component's properties and three tenths of the share in the
item's keys. -/
def scoreOf (shared props items : Nat) : Nat :=
  (Double.add? (share 7 shared props) (share 3 shared items)).getD 0

/-- A score has to be greater than one half. -/
def threshold : Nat := (Double.ofDecimal? 5 (-1)).getD 0

def distinct (names : List String) : List String :=
  Dict.keys (Dict.ofList (names.map fun n => (n, ())))

def candidate? (items : List String) (n : NestedComponent) : Option ShapeMatch :=
  let props := distinct n.props
  let shared := (items.filter props.contains).length
  let score := scoreOf shared props.length items.length
  if shared = 0 || score ≤ threshold then none
  else some ⟨n.name, n.tagName, n.className, score⟩

/-- The component with the highest score; of equal ones the first. -/
def best? (itemProps : List String) (nested : List NestedComponent) : Option ShapeMatch :=
  (nested.filterMap (candidate? (distinct itemProps))).foldl (fun best m =>
    match best with
    | none => some m
    | some b => if b.score < m.score then some m else some b) none

end ShapeMatch

namespace ArrayShape

def ofObject (nested : List NestedComponent) (array : String) (itemProps : List String) :
    ArrayShape :=
  ⟨array, .object, itemProps, ShapeMatch.best? itemProps nested⟩

def ofValue? (nested : List NestedComponent) (array : String) : Json → Option ArrayShape
  | .arr (.obj fields :: _) => some (ofObject nested array (Dict.keys fields))
  | .arr (.str _ :: _) => some ⟨array, .string, [], none⟩
  | .arr (.num _ :: _) => some ⟨array, .number, [], none⟩
  | _ => none

/-- Shapes by array. Keys come from the first item of a value, else from the declared item type. -/
def analyze (values : Fields) (attributes : List Attribute) (types : TypeScope)
    (nested : List NestedComponent) : Dict ArrayShape :=
  let byValue := values.foldl (fun (acc : Dict ArrayShape) (name, value) =>
    match ofValue? nested name value with
    | some shape => Dict.insert name shape acc
    | none => acc) []
  attributes.foldl (fun acc a =>
    if !a.isArray || Dict.has acc a.name then acc else
      match a.itemType with
      | none => acc
      | some type =>
        let members := types.memberNames type
        if members.isEmpty then acc else Dict.insert a.name (ofObject nested a.name members) acc)
    byValue

end ArrayShape

end JsxToJinja
