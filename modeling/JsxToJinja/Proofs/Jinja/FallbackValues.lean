import JsxToJinja.Definition
import JsxToJinja.Jinja.Literal

/-! What a template takes for an attribute that is not given, and what the definition beside it
advertises. The template looks for a type among all of the attribute, the definition goes by the
primary one, and they agree when that is the type found. -/
namespace JsxToJinja
open JsxToJinja.Jinja

namespace Attribute

/-- Zero value of a type. That of an enumeration is its first value. -/
def zeroOf (a : Attribute) : AttributeType → Json
  | .boolean => .bool false
  | .number => .nat 0
  | .enum => .str (a.enumValues.head?.getD "")
  | .array => .arr []
  | _ => .str ""

def fallbackType? (a : Attribute) : Option AttributeType :=
  if a.isBoolean then some .boolean
  else if a.hasType .number then none
  else if !a.enumValues.isEmpty then some .enum
  else if a.isArray then some .array
  else none

end Attribute

open Attribute

private theorem typeDefault_eq (a : Attribute) :
    AttributeEntry.typeDefault a = a.zeroOf a.primaryType := by
  rw [AttributeEntry.typeDefault]
  cases a.primaryType <;> rfl

private theorem defaultValue?_eq {a : Attribute} (h : a.actualDefault? = none) :
    defaultValue? a = a.fallbackType?.map a.zeroOf := by
  rw [defaultValue?, h, fallbackType?]
  dsimp only
  split
  · rfl
  · split
    · rfl
    · cases hvalues : a.enumValues with
      | nil => by_cases harray : a.isArray = true <;> simp [harray, zeroOf]
      | cons v rest => simp [zeroOf, hvalues]

/-- Of the types that a template falls back to, each has a zero value of its own, but that an
enumeration may begin with the empty text. It is primary whenever it has values. -/
private theorem zeroOf_eq_iff {a : Attribute} {t : AttributeType} (h : a.fallbackType? = some t) :
    a.zeroOf a.primaryType = a.zeroOf t ↔ a.primaryType = t := by
  refine ⟨fun hzero => ?_, congrArg _⟩
  rw [fallbackType?] at h
  split at h
  · cases h
    cases hp : a.primaryType <;> rw [hp] at hzero <;> first | rfl | cases hzero
  · split at h
    · cases h
    · split at h
      · rename_i hvalues
        cases h
        rw [primaryType, if_pos (by simp [hvalues])]
      · split at h
        · cases h
          cases hp : a.primaryType <;> rw [hp] at hzero <;> first | rfl | cases hzero
        · cases h

/-- The definition advertises the value that the template falls back to, whenever there is one,
exactly if the primary type is the one that the template finds. A default that is given is the same for
both. -/
theorem fallback_advertised_iff (a : Attribute) (shape : Option ArrayShape)
    (hoptional : a.required = false) :
    (∀ v, defaultValue? a = some v → (AttributeEntry.ofAttribute a shape).default = some v) ↔
      (a.actualDefault? = none → ∀ t, a.fallbackType? = some t → a.primaryType = t) := by
  have hentry : (AttributeEntry.ofAttribute a shape).default =
      some (a.actualDefault?.getD (a.zeroOf a.primaryType)) := by
    rw [← typeDefault_eq, AttributeEntry.ofAttribute, hoptional]
    cases a.actualDefault? <;> rfl
  rw [hentry]
  cases hactual : a.actualDefault? with
  | some given =>
    have hgiven : ∀ v, defaultValue? a = some v → given = v := by
      intro v hv
      rw [defaultValue?, hactual] at hv
      dsimp only at hv
      split at hv
      · cases hv
      · exact Option.some_inj.1 hv
    simpa using hgiven
  | none =>
    rw [defaultValue?_eq hactual]
    constructor
    · intro hagree _ t ht
      exact (zeroOf_eq_iff ht).1 (Option.some_inj.1 (hagree _ (by rw [ht]; rfl)))
    · intro hprimary v hv
      obtain ⟨t, ht, rfl⟩ := Option.map_eq_some_iff.1 hv
      rw [Option.getD_none, hprimary rfl t ht]

/-- An attribute `tone?: 'info' | 'error'`. -/
def Attribute.tone : Attribute :=
  { name := "tone", types := [.enum, .string], enumValues := ["info", "error"] }

theorem tone_fallback_advertised :
    tone.required = false ∧
      ∀ v, defaultValue? tone = some v → (AttributeEntry.ofAttribute tone none).default = some v :=
  ⟨rfl, (fallback_advertised_iff tone none rfl).2 fun _ t ht => by
    obtain rfl : AttributeType.enum = t := Option.some_inj.1 ht
    rfl⟩

/-- An attribute `label?: string | boolean`. -/
def Attribute.label : Attribute := { name := "label", types := [.string, .boolean] }

/-- The template falls back to false, and the definition advertises the empty text. -/
theorem label_fallback_not_advertised :
    label.required = false ∧ label.isFunction = false ∧ defaultValue? label = some (.bool false) ∧
      (AttributeEntry.ofAttribute label none).default = some (.str "") ∧
      (AttributeEntry.ofAttribute label none).default ≠ some (.bool false) :=
  ⟨rfl, rfl, rfl, rfl, nofun⟩

end JsxToJinja
