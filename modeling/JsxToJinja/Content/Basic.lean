import JsxToJinja.Markup.Element

/-! What a component renders: text, elements and the logic between them. -/
namespace JsxToJinja
open JsxToJinja.Text JsxToJinja.Markup

/-- A plain element or a component, without its children. -/
structure Usage where
  name : String
  props : List Property := []
  /-- Code of properties spread from an object. -/
  spreads : List String := []
deriving Repr, DecidableEq

/-- Iteration over an array, without its body. -/
structure Loop where
  array : String
  itemVar : String
  indexVar : Option String := none
  /-- Names taken out of a destructured parameter. -/
  destructured : List String := []
  /-- The rendered tag receives the whole item. -/
  spread : Bool := false
  /-- Properties of the rendered tag with their code. -/
  props : List (String × String) := []
  /-- Component rendered for each item. -/
  tag : Option String := none
deriving Repr, DecidableEq

mutual

inductive Content where
  | literal (text : String)
  /-- A name, and what it stands for when it is bound before the markup. -/
  | reference (name : String) (resolved : Option Content)
  | element (usage : Usage) (children : List Content)
  | component (usage : Usage) (children : List Content)
  | conditional (condition : String) (body : List Content)
  | conditionalComponent (condition : String) (usage : Usage) (children : List Content)
  /-- The first of the chain that is true, or the last. -/
  | fallback (chain : List String)
  | ternary (condition : String) (whenTrue whenFalse : Content)
  | branches (branches : List Branch)
  | arrayMap (loop : Loop) (body : List Content)
  | call (function argument : String)
  | unsupported (code : String)

/-- An arm of a chain of conditions; the last one may have none. -/
inductive Branch where
  | mk (condition : Option String) (body : List Content)

end

instance : Inhabited Content := ⟨.literal ""⟩

namespace Branch

def condition : Branch → Option String
  | mk c _ => c

def body : Branch → List Content
  | mk _ b => b

end Branch

namespace Content

def kind : Content → String
  | literal _ => "literal"
  | reference _ _ => "reference"
  | element _ _ => "element"
  | component _ _ => "component"
  | conditional _ _ => "conditional"
  | conditionalComponent _ _ _ => "conditional_component"
  | fallback _ => "fallback"
  | ternary _ _ _ => "ternary"
  | branches _ => "branches"
  | arrayMap _ _ => "array_map"
  | call _ _ => "content_call"
  | unsupported _ => "unsupported"

mutual

def walk : Content → List Content
  | .reference n (some r) => .reference n (some r) :: walk r
  | .element u cs => .element u cs :: walkAll cs
  | .component u cs => .component u cs :: walkAll cs
  | .conditional c b => .conditional c b :: walkAll b
  | .conditionalComponent c u cs => .conditionalComponent c u cs :: walkAll cs
  | .ternary c a b => .ternary c a b :: (walk a ++ walk b)
  | .branches bs => .branches bs :: walkBranches bs
  | .arrayMap l b => .arrayMap l b :: walkAll b
  | c => [c]

def walkAll : List Content → List Content
  | [] => []
  | c :: cs => walk c ++ walkAll cs

def walkBranches : List Branch → List Content
  | [] => []
  | b :: bs => walkBranch b ++ walkBranches bs

def walkBranch : Branch → List Content
  | .mk _ body => walkAll body

end

def isLoop : Content → Bool
  | arrayMap _ _ => true
  | _ => false

def iterates (c : Content) : Bool := (walk c).any isLoop

mutual

def toJson : Content → Json
  | .literal t => tagged "literal" [("text", .str t)]
  | .reference n none => tagged "reference" [("name", .str n), ("resolved", .null)]
  | .reference n (some r) => tagged "reference" [("name", .str n), ("resolved", toJson r)]
  | .element u cs => tagged "element" (("tag", .str u.name) :: usageFields u (jsonAll cs))
  | .component u cs => tagged "component" (("name", .str u.name) :: usageFields u (jsonAll cs))
  | .conditional c b => tagged "conditional" [("condition", .str c), ("body", .arr (jsonAll b))]
  | .conditionalComponent c u cs => tagged "conditional_component" [("condition", .str c),
      ("component", .object (("name", .str u.name) :: usageFields u (jsonAll cs)))]
  | .fallback chain => tagged "fallback" [("chain", .strings chain)]
  | .ternary c a b => tagged "ternary" [("condition", .str c), ("when_true", toJson a),
      ("when_false", toJson b)]
  | .branches bs => tagged "branches" [("branches", .arr (jsonBranches bs))]
  | .arrayMap l b => tagged "array_map" (loopFields l (jsonAll b))
  | .call f a => tagged "content_call" [("function", .str f), ("argument", .str a)]
  | .unsupported c => tagged "unsupported" [("expression", .str c)]
where
  tagged (name : String) (fields : List (String × Json)) : Json :=
    .object (("type", .str name) :: fields)
  usageFields (u : Usage) (children : List Json) : List (String × Json) :=
    [("props", .arr (u.props.map Property.toJson)), ("spreads", .strings u.spreads),
      ("children", .arr children)]
  loopFields (l : Loop) (body : List Json) : List (String × Json) :=
    [("array", .str l.array), ("item_var", .str l.itemVar), ("index_var", .ofOption .str l.indexVar),
      ("spread", .bool l.spread), ("props", .arr (l.props.map fun p => .strings [p.1, p.2])),
      ("tag", .ofOption .str l.tag), ("body", .arr body)] ++
    (if l.destructured.isEmpty then [] else [("destructured", Json.strings l.destructured)])

def jsonAll : List Content → List Json
  | [] => []
  | c :: cs => toJson c :: jsonAll cs

def jsonBranches : List Branch → List Json
  | [] => []
  | b :: bs => jsonBranch b :: jsonBranches bs

def jsonBranch : Branch → Json
  | .mk c body => .object [("condition", .ofOption .str c), ("body", .arr (jsonAll body))]

end

end Content

namespace Loop

def isFieldChar (c : Char) : Bool := c.isAlphanum || c == '_'

def fieldsFrom (head : List Char) : Nat → List Char → List String
  | 0, _ => []
  | fuel + 1, t =>
    match find? head t with
    | none => []
    | some i =>
      let after := t.drop (i + head.length)
      let name := after.takeWhile isFieldChar
      let rest := fieldsFrom head fuel (after.dropWhile isFieldChar)
      if name.isEmpty then rest else String.ofList name :: rest

def accessedFields (l : Loop) : List String :=
  let head := l.itemVar.toList ++ ['.']
  (l.props.flatMap fun p => fieldsFrom head (p.2.length + 1) p.2.toList).foldl
    (fun acc f => if acc.contains f then acc else acc ++ [f]) l.destructured

end Loop

end JsxToJinja
