import JsxToJinja.Base.Distribution
import JsxToJinja.Proofs.Text.Words

/-! When a rule applies, and which classes an extraction stands for once its properties have values. -/
namespace JsxToJinja
open JsxToJinja.Text

/-- The double that a number counts as in code. -/
def Number.asDouble : Number → Double
  | .int n => ⟨decide (n < 0), (Double.nearest? n.natAbs 1).getD Double.infinite⟩
  | .double d => d

/-- Equality without conversion. Arrays and objects are never equal to another value. -/
def Json.strictEquals : Json → Json → Bool
  | .null, .null => true
  | .bool a, .bool b => a == b
  | .num a, .num b => a.asDouble.same b.asDouble
  | .str a, .str b => a == b
  | _, _ => false

theorem Double.same_self (d : Double) : d.same d = true := by simp [Double.same]

theorem Double.same_common {a b c : Double} (hb : a.same b = true) (hc : a.same c = true) :
    b.same c = true := by
  simp only [Double.same, Bool.and_eq_true, Bool.or_eq_true, beq_iff_eq] at hb hc ⊢
  refine ⟨hb.1.symm.trans hc.1, ?_⟩
  rcases hb.2 with h | h
  · rcases hc.2 with h' | h'
    · exact .inl (h.symm.trans h')
    · exact .inr (hb.1.symm.trans h')
  · exact .inr (hb.1.symm.trans h)

/-- What equals the same value is equal. -/
theorem Json.strictEquals_common {a b c : Json} (hb : a.strictEquals b = true)
    (hc : a.strictEquals c = true) : b.strictEquals c = true := by
  cases a with
  | num a =>
    cases b with
    | num b =>
      cases c with
      | num c => exact Double.same_common hb hc
      | _ => cases hc
    | _ => cases hb
  | _ => cases b <;> cases c <;> simp_all [Json.strictEquals]

/-- Equality of values in code does not depend on the side they stand on. -/
theorem Json.strictEquals_symm {a b : Json} (h : a.strictEquals b = true) :
    b.strictEquals a = true := by
  cases a with
  | num a =>
    cases b with
    | num b => exact Double.same_common h (Double.same_self _)
    | _ => cases h
  | _ => cases b <;> simp_all [strictEquals]

/-- A trigger holds for a property. Code is true as `truth` says; no trigger of a chain and no
template holds on its own. -/
def Trigger.Holds (truth : String → Prop) (value : Json) : Trigger → Prop
  | .truthy => value.isTruthy = true
  | .falsy => value.isTruthy = false
  | .equals v => value.strictEquals v = true
  | .condition code => truth code
  | .otherwise => False
  | .template .. => False

namespace Extraction

/-- A class is present: always, or by a rule whose trigger holds for the value of its property. -/
def Present (e : Extraction) (truth : String → Prop) (env : String → Json) (c : String) : Prop :=
  c ∈ e.base ∨ ∃ r ∈ e.rules, r.trigger.Holds truth (env r.prop) ∧ r.cssClass = c

def Tidy (e : Extraction) : Prop := ∀ c ∈ e.base, IsToken c.toList

variable {truth : String → Prop} {env : String → Json} {c : String}

theorem not_present_empty : ¬ ({} : Extraction).Present truth env c := by
  simp [Present]

theorem tidy_empty : ({} : Extraction).Tidy := by simp [Tidy]

theorem mem_base_merge {e other : Extraction} (h : other.Tidy) :
    c ∈ (e.merge other).base ↔ c ∈ e.base ∨ c ∈ other.base := by
  rw [merge, mem_appendNew, List.mem_flatMap]
  refine or_congr_right ⟨?_, fun hc => ⟨c, hc, by simp [tokens_of_isToken (h c hc)]⟩⟩
  rintro ⟨d, hd, hc⟩
  rw [tokens_of_isToken (h d hd), List.mem_singleton] at hc
  exact hc ▸ hd

theorem Tidy.merge {e other : Extraction} (he : e.Tidy) (ho : other.Tidy) : (e.merge other).Tidy := by
  intro c hc
  rcases (mem_base_merge ho).1 hc with hc | hc
  · exact he c hc
  · exact ho c hc

/-- A merged extraction stands for the classes of both. -/
theorem present_merge {e other : Extraction} (h : other.Tidy) :
    (e.merge other).Present truth env c ↔ e.Present truth env c ∨ other.Present truth env c := by
  have hrules : (e.merge other).rules = e.rules ++ other.rules := rfl
  simp only [Present, mem_base_merge h, hrules, List.mem_append, or_and_right, exists_or]
  constructor
  · rintro ((h | h) | h | h) <;> simp [h]
  · rintro ((h | h) | h | h) <;> simp [h]

theorem tidy_mergeAll {es : List Extraction} (h : ∀ x ∈ es, x.Tidy) : (mergeAll es).Tidy := by
  have hfold (e : Extraction) (he : e.Tidy) : (es.foldl merge e).Tidy := by
    induction es generalizing e with
    | nil => exact he
    | cons x es ih => exact ih (fun y hy => h y (by simp [hy])) _ (he.merge (h x (by simp)))
  exact hfold {} tidy_empty

/-- Merging several extractions keeps the classes of each. -/
theorem present_mergeAll {es : List Extraction} (h : ∀ x ∈ es, x.Tidy) :
    (mergeAll es).Present truth env c ↔ ∃ x ∈ es, x.Present truth env c := by
  have hfold (e : Extraction) : (es.foldl merge e).Present truth env c ↔
      e.Present truth env c ∨ ∃ x ∈ es, x.Present truth env c := by
    induction es generalizing e with
    | nil => simp
    | cons x es ih =>
      rw [List.foldl_cons, ih fun y hy => h y (by simp [hy]), present_merge (h x (by simp)), or_assoc]
      simp
  rw [mergeAll, hfold]
  simp [not_present_empty]

/-- Rules come one extraction after the other. -/
theorem rules_mergeAll (es : List Extraction) : (mergeAll es).rules = es.flatMap (·.rules) := by
  have hfold (e : Extraction) : (es.foldl merge e).rules = e.rules ++ es.flatMap (·.rules) := by
    induction es generalizing e with
    | nil => simp
    | cons x es ih => simp [ih, merge]
  simpa [mergeAll] using hfold {}

/-- Items for review come one extraction after the other. -/
theorem review_mergeAll (es : List Extraction) : (mergeAll es).review = es.flatMap (·.review) := by
  have hfold (e : Extraction) : (es.foldl merge e).review = e.review ++ es.flatMap (·.review) := by
    induction es generalizing e with
    | nil => simp
    | cons x es ih => simp [ih, merge]
  simpa [mergeAll] using hfold {}

/-- Of merged extractions a class is there if one of them has it. -/
theorem present_mergeAll_map {f : α → Extraction} {xs : List α} (h : ∀ x ∈ xs, (f x).Tidy) :
    (mergeAll (xs.map f)).Present truth env c ↔ ∃ x ∈ xs, (f x).Present truth env c := by
  rw [present_mergeAll]
  · constructor
    · rintro ⟨e, he, hp⟩
      obtain ⟨x, hx, rfl⟩ := List.mem_map.1 he
      exact ⟨x, hx, hp⟩
    · rintro ⟨x, hx, hp⟩
      exact ⟨f x, List.mem_map.2 ⟨x, hx, rfl⟩, hp⟩
  · intro e he
    obtain ⟨x, hx, rfl⟩ := List.mem_map.1 he
    exact h x hx

/-- Nothing is left for review when no extraction leaves anything. -/
theorem review_mergeAll_map {f : α → Extraction} {xs : List α}
    (h : (mergeAll (xs.map f)).review = []) : ∀ x ∈ xs, (f x).review = [] := by
  rw [review_mergeAll, List.flatMap_eq_nil_iff] at h
  exact fun x hx => h (f x) (List.mem_map_of_mem hx)

theorem base_mergeAll_eq_nil {es : List Extraction} (h : ∀ x ∈ es, x.base = []) :
    (mergeAll es).base = [] := by
  have hfold (e : Extraction) (he : e.base = []) : (es.foldl merge e).base = [] := by
    induction es generalizing e with
    | nil => exact he
    | cons x es ih =>
      exact ih (fun y hy => h y (by simp [hy])) _ (by simp [merge, he, h x, appendNew])
  exact hfold {} rfl

/-- Every rule is expanded in its place. -/
theorem rules_expandTemplates (e : Extraction) (attributes : List Attribute) :
    (e.expandTemplates attributes).rules = e.rules.flatMap fun r => (expandRule attributes r).rules := by
  simp [expandTemplates, rules_mergeAll, List.flatMap_map]

/-- Without templates there is nothing to expand. -/
theorem rules_expandTemplates_eq_self {e : Extraction}
    (h : ∀ r ∈ e.rules, ∀ p xs g, r.trigger ≠ .template p xs g) (attributes : List Attribute) :
    (e.expandTemplates attributes).rules = e.rules := by
  have hone : ∀ r ∈ e.rules, (expandRule attributes r).rules = [r] := by
    intro r hr
    rw [expandRule.eq_def]
    split
    · rename_i p xs g ht
      exact absurd ht (h r hr p xs g)
    · rfl
  rw [rules_expandTemplates]
  generalize e.rules = rules at hone
  induction rules with
  | nil => rfl
  | cons r rest ih =>
    rw [List.flatMap_cons, hone r (by simp), ih fun x hx => hone x (by simp [hx])]
    rfl

end Extraction

end JsxToJinja
