import JsxToJinja.Proofs.Base.ResolvedClasses

/-! Resolving a component with properties against looking its properties up one at a time. -/
namespace JsxToJinja
open JsxToJinja.Text

/-- Class that a rule gives for a value of a property, if the value sets the rule off. -/
def ClassRule.given? (r : ClassRule) (prop : String) (value : Json) : Option String :=
  if r.prop != prop then none else
    match r.trigger with
    | .truthy => if value.isTruthy then some r.cssClass else none
    | .falsy => if value.isTruthy then none else some r.cssClass
    | .equals expected =>
      if literalKey value == literalKey expected then some r.cssClass else none
    | .template _ excluded none =>
      if value.isTruthy && !excluded.contains (literalKey value) then
        let hole := "$\x7b".toList ++ prop.toList ++ ['\x7d']
        some (String.ofList (replaceAll hole (literalKey value).toList r.cssClass.toList))
      else none
    | _ => none

namespace Detected

private theorem mem_addIf {applies : Bool} {classes : List String} {added c : String} :
    c ∈ (if applies && !classes.contains added then classes ++ [added] else classes) ↔
      c ∈ classes ∨ (applies = true ∧ added = c) := by
  cases applies with
  | false => simp
  | true =>
    by_cases hc : added ∈ classes
    · simp only [Bool.true_and, List.contains_iff_mem.2 hc, Bool.not_true, Bool.false_eq_true,
        if_false, true_and]
      exact ⟨.inl, fun h => h.elim id fun h => h ▸ hc⟩
    · simp [hc, eq_comm]

/-- One rule leaves the classes and adds what it gives. -/
theorem mem_addFor {prop : String} {value : Json} {classes : List String} {r : ClassRule}
    {c : String} :
    c ∈ addFor prop value classes r ↔ c ∈ classes ∨ r.given? prop value = some c := by
  simp only [addFor, ClassRule.given?]
  by_cases hp : (r.prop != prop) = true
  · simp [hp]
  rw [if_neg hp, if_neg hp]
  cases r.trigger with
  | truthy => simp only [mem_addIf]; simp
  | falsy => simp only [mem_addIf]; simp
  | equals expected => simp only [mem_addIf]; simp
  | otherwise => simp
  | condition code => simp
  | template pattern excluded guard =>
    cases guard with
    | some code => simp
    | none =>
      by_cases ht : (value.isTruthy && !excluded.contains (literalKey value)) = true
      · simp only [if_pos ht, List.mem_append, List.mem_singleton, Option.some.injEq]
        exact or_congr_right eq_comm
      · simp only [if_neg ht]
        simp

/-- A value of a property gives the primary element its own classes and those of the rules that it
sets off. -/
theorem mem_classesFor {d : Detected} {prop : String} {value : Json} {c : String} :
    c ∈ d.classesFor prop value ↔
      c ∈ d.primary.classes ∨ ∃ r ∈ d.primary.conditional, r.given? prop value = some c := by
  have hfold (rules : List ClassRule) (classes : List String) :
      c ∈ rules.foldl (addFor prop value) classes ↔
        c ∈ classes ∨ ∃ r ∈ rules, r.given? prop value = some c := by
    induction rules generalizing classes with
    | nil => simp
    | cons r rest ih =>
      rw [List.foldl_cons, ih, mem_addFor, or_assoc]
      simp
  exact hfold _ _

end Detected

namespace BaseLibrary

variable (base : BaseLibrary) (library component : String) (props : Fields)

/-- The classes for all the properties are those without any and those that each one gives. -/
def Agrees : Prop :=
  ∀ c, c ∈ (base.resolve library component props).classes ↔
    c ∈ (base.resolve library component []).classes ∨
      ∃ e ∈ props, c ∈ base.classesFor library component e.1 e.2

variable {base library component props}

theorem agrees_of_mapping {mapping : ComponentMapping}
    (h : base.mapping? library component = some mapping) :
    base.Agrees library component props := by
  intro c
  simp only [resolve, classesFor, h, BaseResolution.mem_classes_ofMapping]
  constructor
  · rintro (hc | ⟨e, he, hc⟩)
    · exact .inl (.inl hc)
    · exact .inr ⟨e, he, .inr ⟨e, by simp, hc⟩⟩
  · rintro ((hc | ⟨e, he, -⟩) | ⟨e, he, hc | ⟨x, hx, hc⟩⟩)
    · exact .inl hc
    · cases he
    · exact .inl hc
    · rw [List.mem_singleton.1 hx] at hc
      exact .inr ⟨e, he, hc⟩

/-- A component that is neither mapped nor detected has no classes in either form. -/
theorem agrees_of_unknown (hm : base.mapping? library component = none)
    (hd : base.detected? library component = none) : base.Agrees library component props := by
  intro c
  simp [resolve, classesFor, hm, hd]

/-- The properties take no part in the resolution of a detected component, so what they set off has
to be there anyway. -/
theorem agrees_iff_of_detected {d : Detected} (hm : base.mapping? library component = none)
    (hd : base.detected? library component = some d) :
    base.Agrees library component props ↔
      ∀ r ∈ d.primary.conditional, ∀ e ∈ props, ∀ c, r.given? e.1 e.2 = some c →
        c ∈ d.primary.classes := by
  simp only [Agrees, resolve, classesFor, hm, hd, BaseResolution.ofDetected,
    Detected.mem_classesFor]
  constructor
  · intro h r hr e he c hc
    exact (h c).2 (.inr ⟨e, he, .inr ⟨r, hr, hc⟩⟩)
  · rintro h c
    refine ⟨.inl, fun hc => ?_⟩
    rcases hc with hc | ⟨e, he, hc | ⟨r, hr, hc⟩⟩
    · exact hc
    · exact hc
    · exact h r hr e he c hc

/-- Resolution and look-up agree except where a property sets off a rule of a detected component
that has no mapping. -/
theorem resolve_agrees_with_lookup_iff (base : BaseLibrary) (library component : String)
    (props : Fields) :
    base.Agrees library component props ↔
      (base.mapping? library component = none →
        ∀ d, base.detected? library component = some d →
          ∀ r ∈ d.primary.conditional, ∀ e ∈ props, ∀ c, r.given? e.1 e.2 = some c →
            c ∈ d.primary.classes) := by
  cases hm : base.mapping? library component with
  | some mapping => simp [agrees_of_mapping hm]
  | none =>
    cases hd : base.detected? library component with
    | none => simp [agrees_of_unknown hm hd]
    | some d => simp [agrees_iff_of_detected hm hd]

def boxes : BaseLibrary where
  distribution := some ("var Box = function(p) \x7b return jsx(\x22b\x22, " ++
    "\x7bclassName: clsx(\x22box\x22, big && \x22box--big\x22)\x7d); \x7d")

/-- The look-up of the property has a class that the resolution with it lacks. -/
theorem big_box_resolved_without_class :
    ¬ boxes.Agrees Builtin.libraryName "Box" [("big", .bool true)] := by
  intro h
  obtain ⟨hlookup, hresolve⟩ :
      "box--big" ∈ boxes.classesFor Builtin.libraryName "Box" "big" (.bool true) ∧
      "box--big" ∉ (boxes.resolve Builtin.libraryName "Box" [("big", .bool true)]).classes := by
    decide
  exact hresolve ((h "box--big").2 (.inr ⟨_, List.mem_singleton_self _, hlookup⟩))

end BaseLibrary

end JsxToJinja
