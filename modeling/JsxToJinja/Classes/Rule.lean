import JsxToJinja.Code.Literal
import JsxToJinja.Component.Attribute
import JsxToJinja.Json.Printer
import JsxToJinja.Review

/-! When a class is present, and what was found out about the classes of an element. -/
namespace JsxToJinja
open JsxToJinja.Text JsxToJinja.Code

/-- A literal as a key: strings bare, all else as JSON text. -/
def literalKey : Json → String
  | .str s => s
  | v => v.compact

inductive Trigger where
  | truthy
  | falsy
  /-- The string `'1'` and the number `1` stay apart. -/
  | equals (value : Json)
  /-- No earlier value of the chain matched. -/
  | otherwise
  | condition (code : String)
  /-- A template literal over one property, to be expanded when its values are known. -/
  | template (pattern : String) (excluded : List String) (guard : Option String)
deriving Repr, BEq

structure ClassRule where
  prop : String
  trigger : Trigger
  cssClass : String
  /-- The condition as it was written. -/
  condition : String
  /-- Rules of one chain exclude each other; an empty class marks an arm that adds nothing. -/
  chain : Option String := none
deriving Repr, BEq

namespace Trigger

def toJson : Trigger → Json
  | truthy => kind "truthy" []
  | falsy => kind "falsy" []
  | otherwise => kind "otherwise" []
  | equals v => kind "equals" [("value", v)]
  | condition c => kind "condition" [("value", .str c)]
  | template p xs g => kind "template" [("value", .object [("pattern", .str p),
      ("excluded", .strings xs), ("guard", .ofOption .str g)])]
where
  kind (name : String) (rest : List (String × Json)) : Json := .object (("kind", .str name) :: rest)

def ofJson (v : Json) : Trigger :=
  let value := (v.get? "value").getD .null
  let text (v : Json) (key : String) : String := ((v.get? key).bind Json.str?).getD ""
  match text v "kind" with
  | "truthy" => truthy
  | "falsy" => falsy
  | "equals" => equals value
  | "condition" => condition (value.str?.getD "")
  | "template" =>
    template (text value "pattern")
      ((((value.get? "excluded").bind Json.arr?).getD []).filterMap Json.str?)
      ((value.get? "guard").bind Json.str?)
  | _ => otherwise

end Trigger

namespace ClassRule

def toJson (r : ClassRule) : Json :=
  .object ([("prop_name", .str r.prop), ("trigger", r.trigger.toJson), ("css_class", .str r.cssClass),
      ("condition", .str r.condition)] ++ (r.chain.map fun c => ("chain", Json.str c)).toList)

def ofJson (v : Json) : ClassRule :=
  let text (key : String) : String := ((v.get? key).bind Json.str?).getD ""
  ⟨text "prop_name", Trigger.ofJson ((v.get? "trigger").getD .null), text "css_class",
    text "condition", (v.get? "chain").bind Json.str?⟩

end ClassRule

abbrev ClassLookup := String → Json → List String

/-- Lookup for an element that wraps no base component. -/
def noBaseClasses : ClassLookup := fun _ _ => []

/-- All that was found about the classes of one element. -/
structure Extraction where
  /-- Classes that are always present, each once. -/
  base : List String := []
  rules : List ClassRule := []
  /-- Code whose value is a list of classes. -/
  computed : List String := []
  /-- Template literals that stay as they are, with their guards. -/
  templates : List (String × Option String) := []
  review : List ReviewItem := []
deriving Repr, BEq

def appendNew [BEq α] (items more : List α) : List α :=
  more.foldl (fun acc x => if acc.contains x then acc else acc ++ [x]) items

theorem appendNew_cons [BEq α] (items more : List α) (x : α) :
    appendNew items (x :: more) =
      appendNew (if items.contains x then items else items ++ [x]) more := rfl

/-- Appending what is new brings in just the members of the second list. -/
theorem mem_appendNew [BEq α] [LawfulBEq α] {items more : List α} {a : α} :
    a ∈ appendNew items more ↔ a ∈ items ∨ a ∈ more := by
  induction more generalizing items with
  | nil => simp [appendNew]
  | cons x rest ih =>
    rw [appendNew_cons, ih]
    split
    · rename_i h
      simp only [List.contains_iff_mem] at h
      constructor
      · rintro (ha | ha) <;> simp [ha]
      · rintro (ha | ha)
        · exact .inl ha
        · rcases List.mem_cons.1 ha with rfl | ha
          · exact .inl h
          · exact .inr ha
    · simp [or_assoc]

/-- Nothing comes twice that was not there twice. -/
theorem nodup_appendNew [BEq α] [LawfulBEq α] {items : List α} (more : List α)
    (h : items.Nodup) : (appendNew items more).Nodup := by
  induction more generalizing items with
  | nil => exact h
  | cons x rest ih =>
    rw [appendNew_cons]
    split
    · exact ih h
    · rename_i hx
      apply ih
      simp only [List.contains_iff_mem] at hx
      refine List.nodup_append.2 ⟨h, by simp, ?_⟩
      rintro a ha b hb rfl
      exact hx (List.mem_singleton.1 hb ▸ ha)

namespace Extraction

def addBase (e : Extraction) (classes : String) : Extraction :=
  { e with base := appendNew e.base (tokens classes) }

def merge (e other : Extraction) : Extraction :=
  { base := appendNew e.base (other.base.flatMap tokens)
    rules := e.rules ++ other.rules
    computed := appendNew e.computed other.computed
    templates := e.templates ++ other.templates
    review := e.review ++ other.review }

def mergeAll (es : List Extraction) : Extraction := es.foldl merge {}

def drivingProps (e : Extraction) : List String :=
  (Dict.ofList (e.rules.map fun r => (r.prop, Json.null))).map (·.1)

def isEmpty (e : Extraction) : Bool :=
  e.base.isEmpty && e.rules.isEmpty && e.computed.isEmpty && e.templates.isEmpty

end Extraction

end JsxToJinja
