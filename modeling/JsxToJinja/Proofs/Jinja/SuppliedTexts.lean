import JsxToJinja.Jinja.Template
import JsxToJinja.Proofs.Jinja.ClassBlocks

/-! The strings that a template is made from, and when none of them opens a tag. -/
namespace JsxToJinja
open JsxToJinja.Text JsxToJinja.Markup JsxToJinja.Jinja

def Attribute.texts (a : Attribute) : List String :=
  a.name :: a.enumValues ++ (match a.default with
    | some (.actual v) => v.texts
    | some (.example v) => v.texts
    | none => [])

namespace Markup.Property

def texts (p : Property) : List String :=
  p.name :: (match p.value with
    | .literal text => [text]
    | .expression code => [code]
    | .flag => [])

def codes (p : Property) : List String :=
  match p.value with
  | .expression code => [code]
  | _ => []

def classCodes (p : Property) : List String :=
  if TemplateInput.htmlName p.name == "class" then p.codes else []

end Markup.Property

namespace Usage

def texts (u : Usage) : List String := u.name :: u.spreads ++ u.props.flatMap Property.texts

def codes (u : Usage) : List String := u.props.flatMap Property.codes

end Usage

namespace Content

/-- Strings of the content itself, without what is below it. -/
def texts : Content → List String
  | .literal text => [text]
  | .reference name _ => [name]
  | .element u _ => u.texts
  | .component u _ => u.texts
  | .conditional condition _ => [condition]
  | .conditionalComponent condition u _ => condition :: u.texts
  | .fallback chain => chain
  | .ternary condition _ _ => [condition]
  | .branches bs => bs.filterMap Branch.condition
  | .arrayMap l _ => l.array :: l.itemVar :: l.indexVar.toList
  | .call function argument => [function, argument]
  | .unsupported code => [code]

def codes : Content → List String
  | .reference name _ => [name]
  | .element u _ => u.codes
  | .component u _ => u.codes
  | .conditional condition _ => [condition]
  | .conditionalComponent condition u _ => condition :: u.codes
  | .fallback chain => chain
  | .ternary condition _ _ => [condition]
  | .branches bs => bs.filterMap Branch.condition
  | .arrayMap l _ => [l.array]
  | .call _ argument => [argument]
  | _ => []

def classCodes : Content → List String
  | .element u _ => u.props.flatMap Property.classCodes
  | _ => []

/-- Branches are at least one, the first has a condition, and only the last may have none. -/
def branchesInOrder : Content → Bool
  | .branches [] => false
  | .branches (b :: bs) => b.condition.isSome && bs.dropLast.all (·.condition.isSome)
  | _ => true

end Content

def Wrapper.texts (w : Wrapper) : List String := w.tag :: w.classes

def BaseResolution.texts (r : BaseResolution) : List String :=
  r.tag :: r.classes ++ r.attributes.flatMap (fun a => [a.1, a.2]) ++
    r.wrapper.toList.flatMap Wrapper.texts

namespace Jinja

def RootTag.text : RootTag → String
  | .fixed name => name
  | .dynamic code => code

def RootElement.texts (r : RootElement) : List String :=
  r.tag.text :: r.attributes.flatMap (fun a => [a.1, a.2]) ++
    r.conditional.flatMap (fun c => [c.condition, c.name, c.value]) ++
    r.wrappers.flatMap Wrapper.texts

namespace TemplateInput

variable (input : TemplateInput)

def texts : List String :=
  [input.name, input.sourceFile] ++ input.attributes.flatMap Attribute.texts ++ input.root.texts ++
    (Content.walkAll input.content).flatMap Content.texts ++
    input.inlineComponents.flatMap (·.2.texts) ++ input.arrayShapes.flatMap (·.2.itemProps) ++
    input.passThrough.flatMap fun p => [p.name, p.targetAttribute]

/-- Expressions of a class expression on a plain element: what is read out of it, as it is written. -/
def classTexts (code : String) : List String :=
  match Code.stringLiteral? code.toList with
  | some classes => [String.ofList classes]
  | none =>
    let e := (ClassExpression.extract input.attributes code.toList).expandTemplates input.attributes
    e.base ++ e.rules.flatMap (fun r => r.prop :: r.cssClass :: r.trigger.written input.names) ++
      e.templates.flatMap (fun t => (templateLiteral? input.names t.1).getD (quote t.1) ::
        (t.2.map input.jinja).toList) ++
      e.computed.map input.jinja

def tagCodes : List String :=
  match input.root.tag with
  | .fixed _ => []
  | .dynamic code => [code]

def codes : List String :=
  input.tagCodes ++ input.root.conditional.map (·.condition) ++
    (Content.walkAll input.content).flatMap Content.codes

/-- Strings that the generator itself makes of literals, where it decodes or unfolds them: the
expressions for code with a template literal in it, and what stands in class expressions. -/
def unfolded : List String :=
  (input.codes.filter (·.toList.contains '\x60')).map input.jinja ++
    input.tagCodes.filterMap (templateLiteral? input.names) ++
    ((Content.walkAll input.content).flatMap Content.classCodes).flatMap input.classTexts

/-- No string that stands in the template opens a tag. -/
structure Plain : Prop where
  supplied : ∀ s ∈ input.texts, TagFree s.toList
  unfolded : ∀ s ∈ input.unfolded, TagFree s.toList

end TemplateInput

end Jinja

/-! ### Plain parts of a plain input -/

variable {input : TemplateInput}

/-- No string of an element or component opens a tag, nor does what is written for its code. -/
structure Usage.Plain (input : TemplateInput) (u : Usage) : Prop where
  texts : ∀ s ∈ u.texts, TagFree s.toList
  codes : ∀ code ∈ u.codes, TagFree (input.jinja code).toList

structure Content.Plain (input : TemplateInput) (c : Content) : Prop where
  texts : ∀ s ∈ c.texts, TagFree s.toList
  codes : ∀ code ∈ c.codes, TagFree (input.jinja code).toList
  classes : ∀ code ∈ c.classCodes, ∀ s ∈ input.classTexts code, TagFree s.toList
  branches : c.branchesInOrder = true

theorem Usage.codes_subset_texts (u : Usage) : u.codes ⊆ u.texts := by
  intro code hcode
  obtain ⟨p, hp, hcode⟩ := List.mem_flatMap.1 hcode
  refine List.mem_append_right _ (List.mem_flatMap.2 ⟨p, hp, ?_⟩)
  cases hv : p.value with
  | expression text =>
    rw [Property.codes, hv] at hcode
    rw [Property.texts, hv]
    exact List.mem_cons_of_mem _ hcode
  | _ => simp [Property.codes, hv] at hcode

theorem Content.codes_subset_texts (c : Content) : c.codes ⊆ c.texts := by
  cases c with
  | element u _ => exact u.codes_subset_texts
  | component u _ => exact u.codes_subset_texts
  | conditionalComponent condition u _ => exact List.cons_subset_cons _ u.codes_subset_texts
  | arrayMap l _ => simp [codes, texts]
  | call f argument => simp [codes, texts]
  | literal _ => exact List.nil_subset _
  | unsupported _ => exact List.nil_subset _
  | _ => exact List.Subset.refl _

namespace Jinja.TemplateInput

theorem firm_names : input.names.Firm := NameMap.firm_ofNames _

theorem tagFree_resolve (input : TemplateInput) {name : String} (h : TagFree name.toList) :
    TagFree (input.names.resolve name).toList :=
  firm_names.tagFree_resolve h

/-- Code without a template literal is written without an opening of a tag. -/
theorem Plain.jinja (h : input.Plain) {code : String} (hcode : code ∈ input.codes)
    (hfree : TagFree code.toList) : TagFree (input.jinja code).toList := by
  by_cases htick : '\x60' ∈ code.toList
  · have hwritten : input.jinja code ∈ (input.codes.filter (·.toList.contains '\x60')).map input.jinja :=
      List.mem_map_of_mem (List.mem_filter.2 ⟨hcode, by simpa using htick⟩)
    exact h.unfolded _ (List.mem_append_left _ (List.mem_append_left _ hwritten))
  · exact tagFree_translate firm_names hfree htick

/-- What is supplied for the whole template is supplied for each of its contents. -/
theorem Plain.content (h : input.Plain) {c : Content} (hc : c ∈ Content.walkAll input.content)
    (hbranches : c.branchesInOrder = true) : c.Plain input := by
  have htexts : ∀ s ∈ c.texts, TagFree s.toList := fun s hs => by
    refine h.supplied s ?_
    simp only [TemplateInput.texts, List.mem_append, List.mem_flatMap]
    exact .inl (.inl (.inl (.inr ⟨c, hc, hs⟩)))
  refine ⟨htexts, fun code hcode => h.jinja ?_ (htexts _ (c.codes_subset_texts hcode)), ?_, hbranches⟩
  · exact List.mem_append_right _ (List.mem_flatMap.2 ⟨c, hc, hcode⟩)
  · intro code hcode s hs
    refine h.unfolded s (List.mem_append_right _ (List.mem_flatMap.2 ⟨code, ?_, hs⟩))
    exact List.mem_flatMap.2 ⟨c, hc, hcode⟩

theorem Plain.base (h : input.Plain) {name : String} {r : BaseResolution}
    (hr : Dict.get? input.inlineComponents name = some r) : ∀ s ∈ r.texts, TagFree s.toList := by
  obtain ⟨e, he, rfl⟩ := Option.map_eq_some_iff.1 hr
  intro s hs
  refine h.supplied s ?_
  simp only [texts, List.mem_append, List.mem_flatMap]
  exact .inl (.inl (.inr ⟨e, List.mem_of_find?_eq_some he, hs⟩))

theorem Plain.shape (h : input.Plain) {array : String} {shape : ArrayShape}
    (hshape : Dict.get? input.arrayShapes array = some shape) :
    ∀ s ∈ shape.itemProps, TagFree s.toList := by
  obtain ⟨e, he, rfl⟩ := Option.map_eq_some_iff.1 hshape
  intro s hs
  refine h.supplied s ?_
  simp only [texts, List.mem_append, List.mem_flatMap]
  exact .inl (.inr ⟨e, List.mem_of_find?_eq_some he, hs⟩)

theorem Plain.passThrough (h : input.Plain) {p : PassThrough} (hp : p ∈ input.passThrough) :
    TagFree p.name.toList ∧ TagFree p.targetAttribute.toList := by
  have hmem {s : String} (hs : s ∈ [p.name, p.targetAttribute]) : TagFree s.toList := by
    refine h.supplied s ?_
    simp only [texts, List.mem_append, List.mem_flatMap]
    exact .inr ⟨p, hp, hs⟩
  exact ⟨hmem (by simp), hmem (by simp)⟩

theorem Plain.attribute (h : input.Plain) {a : Attribute} (ha : a ∈ input.attributes) :
    ∀ s ∈ a.texts, TagFree s.toList := by
  intro s hs
  refine h.supplied s ?_
  simp only [texts, List.mem_append, List.mem_flatMap]
  exact .inl (.inl (.inl (.inl (.inl (.inr ⟨a, ha, hs⟩)))))

theorem Plain.root (h : input.Plain) : ∀ s ∈ input.root.texts, TagFree s.toList := by
  intro s hs
  refine h.supplied s ?_
  simp only [texts, List.mem_append]
  exact .inl (.inl (.inl (.inl (.inr hs))))

end Jinja.TemplateInput

end JsxToJinja
