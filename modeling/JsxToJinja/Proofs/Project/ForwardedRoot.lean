import JsxToJinja.Project.Root
import JsxToJinja.Proofs.Base.ResolvedClasses
import JsxToJinja.Proofs.Classes.HandedValues
import JsxToJinja.Proofs.Classes.SwitchChain
import JsxToJinja.Proofs.Code.Literals
import JsxToJinja.Proofs.Code.Names

/-! A root that hands an attribute on to a mapped base component: which classes it has when the
attribute has a value, and when these are the classes of the base component for that value. -/
namespace JsxToJinja
open JsxToJinja.Text JsxToJinja.Code JsxToJinja.Markup

/-- The code of a property hands on an attribute, maybe as a member of the properties. -/
structure HandsOn (code a : String) : Prop where
  identifier : isIdentifier a.toList = true
  text : trim code.toList = a.toList ∨ trim code.toList = propsHead ++ a.toList

/-- A root that wraps a mapped base component and hands an attribute on to one property of it. Other
properties have no mapping, there is no class property and no property carries the result of a
switch. -/
structure Wrapping (library : BaseLibrary) (source : Source) (root : Element)
    (b : BaseComponentRef) (mapping : ComponentMapping) (prop code a : String) : Prop where
  component : root.isComponent = true
  base : RootPlan.baseOf? library source.imports root.name = some b
  mapped : library.mapping? b.library b.component = some mapping
  handed : ⟨prop, .expression code⟩ ∈ root.props
  others : ∀ q ∈ root.props, q = ⟨prop, .expression code⟩ ∨ Dict.get? mapping.props q.name = none
  handsOn : HandsOn code a
  noClasses : root.prop? "className" = none
  noSwitch : ∀ s ∈ Switch.parseAll source.text, RootPlan.carriers root s = []

/-- Default of the attribute that the root is resolved with. -/
def declaredDefault? (attributes : List Attribute) (a : String) : Option Json :=
  (attributes.find? fun x => x.name == a && !x.isBoolean).bind (·.actualDefault?)

theorem HandsOn.stripProps_eq {code a : String} (h : HandsOn code a) :
    stripProps (trim code.toList) = a.toList := by
  rcases h.text with ht | ht
  · rw [ht, stripProps_of_isIdentifier h.identifier]
  · rw [ht, stripProps_props h.identifier]

theorem HandsOn.forwardedName?_eq {code a : String} (h : HandsOn code a) :
    RootPlan.forwardedName? code = some a := by
  have hdot : '.' ∉ a.toList := fun hm =>
    absurd (isIdentifierChar_of_mem h.identifier hm) (by decide)
  have hname : (dropHead? "props.".toList (trim code.toList)).getD (trim code.toList) = a.toList := by
    rcases h.text with ht | ht
    · have hstart : startsWith a.toList "props.".toList = false := by
        rw [← Bool.not_eq_true, startsWith, List.isPrefixOf_iff_prefix]
        exact fun hp => not_infix_of_notMem hdot hp.isInfix
      simp only [ht, dropHead?, hstart]
      rfl
    · have hstart : startsWith (propsHead ++ a.toList) "props.".toList = true :=
        startsWith_append_self _ _
      simp only [ht, dropHead?, hstart, if_true, Option.getD_some]
      exact List.drop_left
  simp only [RootPlan.forwardedName?, hname, h.identifier, if_true, String.ofList_toList]

theorem HandsOn.fixedValue?_eq {code a : String} (h : HandsOn code a)
    (attributes : List Attribute) :
    RootPlan.fixedValue? attributes (.expression code) = declaredDefault? attributes a := by
  have hquote : ∀ c ∈ (trim code.toList).head?, isQuote c = false := by
    intro c hc
    rcases h.text with ht | ht
    · rw [ht] at hc
      exact isQuote_eq_false (isOrdinary_of_isIdentifierChar
        (isIdentifierChar_of_mem h.identifier (List.mem_of_mem_head? hc)))
    · rw [ht] at hc
      have hhead : (propsHead ++ a.toList).head? = some 'p' := rfl
      rw [hhead, Option.mem_some_iff] at hc
      rw [← hc]
      decide
  simp [RootPlan.fixedValue?, stringLiteral?_of_head hquote, h.forwardedName?_eq, declaredDefault?]

/-! ### Properties without classes of their own -/

def Extraction.Classless (e : Extraction) : Prop := e.base = [] ∧ e.rules = []

theorem Extraction.Classless.merge {e other : Extraction} (he : e.Classless)
    (ho : other.Classless) : (e.merge other).Classless := by
  simp [Classless, Extraction.merge, he.1, he.2, ho.1, ho.2, appendNew]

namespace Forwarded

private theorem classless_branches (attributes : List Attribute) (problem : ReviewItem)
    (cases : List (List Char × List Char)) :
    (branches attributes (fun _ => []) problem cases).Classless := by
  induction cases with
  | nil => exact ⟨rfl, rfl⟩
  | cons x rest ih =>
    obtain ⟨condition, value⟩ := x
    rw [branches]
    split
    · exact ⟨rfl, rfl⟩
    · have hunder : underCondition attributes condition [] = {} := by simp [underCondition]
      rw [hunder]
      exact Extraction.Classless.merge ⟨rfl, rfl⟩ ih

/-- A property whose values add nothing new gives no rule. -/
theorem classless_ofProp {lookup : ClassLookup} {base : List String} {p : Property}
    (h : ∀ v, newClasses lookup base p.name v = []) (attributes : List Attribute)
    (skip : List String) : (ofProp attributes lookup base skip p).Classless := by
  have hclasses : newClasses lookup base p.name = fun _ => [] := funext h
  rw [ofProp]
  split
  · exact ⟨rfl, rfl⟩
  · split
    · simp only [hclasses]
      split
      · exact ⟨rfl, rfl⟩
      · split
        · exact classless_branches attributes _ _
        · split
          · rw [attributeValue]
            split
            · exact ⟨rfl, rfl⟩
            · split
              · exact ⟨rfl, by simp⟩
              · split
                · exact ⟨rfl, by simp⟩
                · exact ⟨rfl, rfl⟩
          · exact ⟨rfl, rfl⟩
    · exact ⟨rfl, rfl⟩

/-- Rules of a property that hands an attribute with known values on. -/
theorem ofProp_handsOn {code a : String} (h : HandsOn code a) {attributes : List Attribute}
    {attr : Attribute} (hattr : Attribute.find? attributes a = some attr)
    (hvalues : attr.enumValues ≠ []) (lookup : ClassLookup) (base : List String) (prop : String) :
    ofProp attributes lookup base [] ⟨prop, .expression code⟩ =
      if isSkipped prop then {} else
        { rules := attr.enumValues.flatMap fun v =>
            (newClasses lookup base prop (.str v)).map fun c =>
              ⟨a, .equals (attr.enumOperand v), c, a ++ " === '" ++ v ++ "'", none⟩ } := by
  have hne : (!attr.enumValues.isEmpty) = true := by simpa using hvalues
  rw [ofProp, isSkipped]
  simp only [List.contains_nil, Bool.or_false, h.stripProps_eq,
    splitTernary?_of_isIdentifier h.identifier, h.identifier, if_true, String.ofList_toList,
    attributeValue, hattr, hne, Bool.false_eq_true, if_false]

end Forwarded

namespace Switch

private theorem caseArms_classes {s : Switch} {classes : String → List String}
    (h : ∀ result, classes result = []) (seen : List Json) (pairs : List (Json × String)) :
    ∀ arm ∈ caseArms s classes seen pairs, arm.classes = [] := by
  induction pairs generalizing seen with
  | nil => simp [caseArms]
  | cons e rest ih =>
    intro arm harm
    rw [caseArms] at harm
    split at harm
    · exact ih seen arm harm
    · rcases List.mem_cons.1 harm with rfl | harm
      · exact h e.2
      · exact ih _ arm harm

/-- A switch whose target is neither handed on nor used in a class expression gives no rules. -/
theorem rules_eq_nil {s : Switch} {root : Element} (h : RootPlan.carriers root s = [])
    (lookup : ClassLookup) (base : List String) : s.rules root.props none lookup base = [] := by
  have hnone : s.receiver? root.props = none := by
    rw [receiver?, List.find?_eq_none]
    intro p hp hmatch
    rw [RootPlan.carriers, List.map_eq_nil_iff, List.filter_eq_nil_iff] at h
    apply h p hp
    cases hv : p.value with
    | expression e =>
      rw [hv, beq_iff_eq] at hmatch
      simp [hmatch]
    | literal t => simp [hv] at hmatch
    | flag => simp [hv] at hmatch
  have hclasses (result : String) : s.classesOf root.props none lookup base result = [] := by
    refine List.eq_nil_iff_forall_not_mem.2 fun c hc => ?_
    have hmem := (mem_classesOf root.props none lookup base result c).1 hc
    simp [hnone] at hmem
  rw [rules]
  apply if_pos
  rw [List.all_eq_true]
  intro arm harm
  rcases List.mem_append.1 harm with harm | harm
  · simp [caseArms_classes hclasses _ _ arm harm]
  · cases hd : s.default with
    | none => simp [hd] at harm
    | some d => simp [hd, hclasses] at harm

end Switch

namespace Wrapping

variable {library : BaseLibrary} {source : Source} {root : Element} {b : BaseComponentRef}
  {mapping : ComponentMapping} {prop code a : String} {attributes : List Attribute}

theorem resolve_eq (h : Wrapping library source root b mapping prop code a) (props : Fields) :
    library.resolve b.library b.component props = .ofMapping mapping props := by
  simp [BaseLibrary.resolve, h.mapped]

theorem classesFor_eq (h : Wrapping library source root b mapping prop code a) (p : String)
    (v : Json) :
    library.classesFor b.library b.component p v =
      (BaseResolution.ofMapping mapping [(p, v)]).classes := by
  simp [BaseLibrary.classesFor, h.mapped]

/-- The root is resolved with the default of the attribute, if it has one. -/
theorem mem_resolution (h : Wrapping library source root b mapping prop code a)
    (attributes : List Attribute) (c : String) :
    c ∈ (library.resolve b.library b.component (RootPlan.baseProps root attributes)).classes ↔
      c ∈ mapping.classes ∨ RootPlan.isForBase prop = true ∧
        ∃ d ∈ declaredDefault? attributes a, c ∈ mapping.added prop d := by
  rw [h.resolve_eq, BaseResolution.mem_classes_ofMapping, RootPlan.baseProps]
  refine or_congr_right ?_
  constructor
  · rintro ⟨e, he, hc⟩
    obtain ⟨q, hq, hfixed⟩ := List.mem_filterMap.1 (Dict.mem_of_mem_ofList he)
    obtain ⟨v, hv, rfl⟩ := Option.map_eq_some_iff.1 hfixed
    obtain ⟨hq, hfor⟩ := List.mem_filter.1 hq
    rcases h.others q hq with rfl | hun
    · rw [h.handsOn.fixedValue?_eq] at hv
      exact ⟨hfor, v, hv, hc⟩
    · simp [ComponentMapping.added_of_unmapped hun] at hc
  · rintro ⟨hfor, d, hd, hc⟩
    refine ⟨(prop, d), Dict.mem_ofList_of_unique ?_ ?_, hc⟩
    · intro x hx hname
      obtain ⟨q, hq, hfixed⟩ := List.mem_filterMap.1 hx
      obtain ⟨v, hv, rfl⟩ := Option.map_eq_some_iff.1 hfixed
      rcases h.others q (List.mem_filter.1 hq).1 with rfl | hun
      · rw [h.handsOn.fixedValue?_eq, hd, Option.some.injEq] at hv
        rw [hv]
      · rw [show q.name = prop from hname] at hun
        simp [ComponentMapping.added_of_unmapped hun] at hc
    · refine List.mem_filterMap.2 ⟨_, List.mem_filter.2 ⟨h.handed, hfor⟩, ?_⟩
      rw [h.handsOn.fixedValue?_eq, Option.mem_def.1 hd]
      rfl

/-- Rules for the properties of the root, against the classes that are always there. -/
def handedOn (library : BaseLibrary) (b : BaseComponentRef) (root : Element)
    (attributes : List Attribute) : Extraction :=
  Forwarded.extract attributes (library.classesFor b.library b.component)
    (library.resolve b.library b.component (RootPlan.baseProps root attributes)).classes root.props []

/-- The classes of a root around a base component, in terms of what its properties hand on. -/
theorem classes_make (h : Wrapping library source root b mapping prop code a) :
    (RootPlan.make library source root attributes).classes =
      let all := (({} : Extraction).merge (handedOn library b root attributes)).expandTemplates
        attributes
      { all with base := appendNew (library.resolve b.library b.component
          (RootPlan.baseProps root attributes)).classes all.base } := by
  have hbase : (if root.isComponent then RootPlan.baseOf? library source.imports root.name
      else none) = some b := by rw [if_pos h.component, h.base]
  have hfound : RootPlan.classProperty root attributes = {} := by
    simp [RootPlan.classProperty, h.noClasses]
  have hcode : RootPlan.classCode? root = none := by simp [RootPlan.classCode?, h.noClasses]
  have hswitch (lookup : ClassLookup) (base : List String) :
      ((Switch.parseAll source.text).flatMap fun s => s.rules root.props none lookup base) = [] :=
    List.flatMap_eq_nil_iff.2 fun s hs => Switch.rules_eq_nil (h.noSwitch s hs) lookup base
  have hskip : (Switch.parseAll source.text).flatMap (RootPlan.carriers root) = [] :=
    List.flatMap_eq_nil_iff.2 h.noSwitch
  simp only [RootPlan.make, hbase, hfound, hcode, hswitch, hskip, RootPlan.resolveRoot,
    Reviewed.value_pure, Option.map_some, Option.getD_some, List.append_nil]
  rfl

def added (library : BaseLibrary) (b : BaseComponentRef) (root : Element)
    (attributes : List Attribute) : String → Json → List String :=
  Forwarded.newClasses (library.classesFor b.library b.component)
    (library.resolve b.library b.component (RootPlan.baseProps root attributes)).classes

theorem mem_added (h : Wrapping library source root b mapping prop code a) {p c : String}
    {v : Json} :
    c ∈ added library b root attributes p v ↔
      c ∈ mapping.added p v ∧
        c ∉ (library.resolve b.library b.component (RootPlan.baseProps root attributes)).classes := by
  rw [added, Forwarded.newClasses, List.mem_filter, h.classesFor_eq,
    BaseResolution.mem_classes_ofMapping]
  simp only [Bool.not_eq_true', List.contains_eq_mem, decide_eq_false_iff_not, List.mem_singleton,
    exists_eq_left]
  refine and_congr_left fun hnot => or_iff_right fun hown => hnot ?_
  exact (h.mem_resolution attributes c).2 (.inl hown)

private theorem added_of_unmapped (h : Wrapping library source root b mapping prop code a)
    {p : String} (hp : Dict.get? mapping.props p = none) (v : Json) :
    added library b root attributes p v = [] := by
  refine List.eq_nil_iff_forall_not_mem.2 fun c hc => ?_
  have hadded := (h.mem_added.1 hc).1
  simp [ComponentMapping.added_of_unmapped hp] at hadded

variable {attr : Attribute}

private theorem ofProp_eq (h : Wrapping library source root b mapping prop code a)
    (hattr : Attribute.find? attributes a = some attr) (hvalues : attr.enumValues ≠ []) :
    Forwarded.ofProp attributes (library.classesFor b.library b.component)
        (library.resolve b.library b.component (RootPlan.baseProps root attributes)).classes []
        ⟨prop, .expression code⟩ =
      if Forwarded.isSkipped prop then {} else
        { rules := attr.enumValues.flatMap fun w => (added library b root attributes prop (.str w)).map
            fun c => ⟨a, .equals (attr.enumOperand w), c, a ++ " === '" ++ w ++ "'", none⟩ } :=
  Forwarded.ofProp_handsOn h.handsOn hattr hvalues _ _ prop

/-- Only the property that hands the attribute on gives rules. -/
theorem mem_rules_handedOn (h : Wrapping library source root b mapping prop code a)
    (hattr : Attribute.find? attributes a = some attr) (hvalues : attr.enumValues ≠ [])
    (r : ClassRule) :
    r ∈ (handedOn library b root attributes).rules ↔
      Forwarded.isSkipped prop = false ∧ ∃ w ∈ attr.enumValues,
        ∃ c ∈ added library b root attributes prop (.str w),
          r = ⟨a, .equals (attr.enumOperand w), c, a ++ " === '" ++ w ++ "'", none⟩ := by
  rw [handedOn, Forwarded.extract, Extraction.rules_mergeAll]
  constructor
  · intro hr
    obtain ⟨e, he, hr⟩ := List.mem_flatMap.1 hr
    obtain ⟨q, hq, rfl⟩ := List.mem_map.1 he
    rcases h.others q hq with rfl | hun
    · rw [h.ofProp_eq hattr hvalues] at hr
      split at hr
      · cases hr
      · rename_i hskip
        obtain ⟨w, hw, hr⟩ := List.mem_flatMap.1 hr
        obtain ⟨c, hc, rfl⟩ := List.mem_map.1 hr
        exact ⟨by simpa using hskip, w, hw, c, hc, rfl⟩
    · rw [(Forwarded.classless_ofProp (h.added_of_unmapped hun) attributes []).2] at hr
      cases hr
  · rintro ⟨hskip, w, hw, c, hc, rfl⟩
    refine List.mem_flatMap.2 ⟨_, List.mem_map.2 ⟨_, h.handed, rfl⟩, ?_⟩
    rw [h.ofProp_eq hattr hvalues, if_neg (by simp [hskip])]
    exact List.mem_flatMap.2 ⟨w, hw, List.mem_map.2 ⟨c, hc, rfl⟩⟩

private theorem base_handedOn (h : Wrapping library source root b mapping prop code a)
    (hattr : Attribute.find? attributes a = some attr) (hvalues : attr.enumValues ≠ []) :
    (handedOn library b root attributes).base = [] := by
  refine Extraction.base_mergeAll_eq_nil fun e he => ?_
  obtain ⟨q, hq, rfl⟩ := List.mem_map.1 he
  rcases h.others q hq with rfl | hun
  · rw [h.ofProp_eq hattr hvalues]
    split <;> rfl
  · exact (Forwarded.classless_ofProp (h.added_of_unmapped hun) attributes []).1

/-- Classes of the root when the attribute has a value: those of the component, those of the default
whatever the value is, and those of all values that compare equal. -/
theorem present_iff (h : Wrapping library source root b mapping prop code a)
    (hattr : Attribute.find? attributes a = some attr) (hvalues : attr.enumValues ≠ [])
    (truth : String → Prop) (env : String → Json) (c : String) :
    (RootPlan.make library source root attributes).classes.Present truth env c ↔
      c ∈ mapping.classes ∨
      (RootPlan.isForBase prop = true ∧
        ∃ d ∈ declaredDefault? attributes a, c ∈ mapping.added prop d) ∨
      (Forwarded.isSkipped prop = false ∧ ∃ w ∈ attr.enumValues,
        (env a).strictEquals (attr.enumOperand w) = true ∧ c ∈ mapping.added prop (.str w)) := by
  have hmem := h.mem_rules_handedOn hattr hvalues
  have hrules : (({} : Extraction).merge (handedOn library b root attributes)).rules =
      (handedOn library b root attributes).rules := rfl
  have htemplate : ∀ r ∈ (({} : Extraction).merge (handedOn library b root attributes)).rules,
      ∀ p xs g, r.trigger ≠ .template p xs g := by
    intro r hr p xs g
    obtain ⟨-, w, -, d, -, rfl⟩ := (hmem r).1 hr
    simp
  have hbase : ((({} : Extraction).merge (handedOn library b root attributes)).expandTemplates
      attributes).base = [] := by
    show (({} : Extraction).merge (handedOn library b root attributes)).base = []
    simp [Extraction.merge, h.base_handedOn hattr hvalues, appendNew]
  rw [h.classes_make, Extraction.Present]
  simp only [hbase, Extraction.rules_expandTemplates_eq_self htemplate, hrules, mem_appendNew,
    List.not_mem_nil, or_false]
  rw [← or_assoc, ← h.mem_resolution attributes]
  by_cases hres : c ∈ (library.resolve b.library b.component
      (RootPlan.baseProps root attributes)).classes
  · simp [hres]
  · refine or_congr_right ?_
    constructor
    · rintro ⟨r, hr, hholds, hclass⟩
      obtain ⟨hskip, w, hw, d, hd, rfl⟩ := (hmem r).1 hr
      exact ⟨hskip, w, hw, hholds, hclass ▸ (h.mem_added.1 hd).1⟩
    · rintro ⟨hskip, w, hw, hsame, hc⟩
      exact ⟨_, (hmem _).2 ⟨hskip, w, hw, c, h.mem_added.2 ⟨hc, hres⟩, rfl⟩, hsame, rfl⟩

end Wrapping

/-- The root has the classes of the base component for the value of the attribute exactly if the
classes of the default belong to that value too and, where the property is looked at for classes, so
do those of all values that compare equal; a property that is not looked at must add nothing new. -/
theorem root_classes_follow_value_iff {library : BaseLibrary} {source : Source} {root : Element}
    {b : BaseComponentRef} {mapping : ComponentMapping} {prop code a : String}
    (h : Wrapping library source root b mapping prop code a) {attributes : List Attribute}
    {attr : Attribute} (hattr : Attribute.find? attributes a = some attr) {v : String}
    (hv : v ∈ attr.enumValues) (truth : String → Prop) {env : String → Json}
    (henv : env a = attr.enumOperand v) :
    (∀ c, (RootPlan.make library source root attributes).classes.Present truth env c ↔
      c ∈ (library.resolve b.library b.component [(prop, .str v)]).classes) ↔
    (RootPlan.isForBase prop = true → ∀ d ∈ declaredDefault? attributes a,
      ∀ c ∈ mapping.added prop d, c ∈ mapping.classes ∨ c ∈ mapping.added prop (.str v)) ∧
    (if Forwarded.isSkipped prop then
      ∀ c ∈ mapping.added prop (.str v), c ∈ mapping.classes ∨
        RootPlan.isForBase prop = true ∧
          ∃ d ∈ declaredDefault? attributes a, c ∈ mapping.added prop d
    else
      ∀ w ∈ attr.enumValues, (attr.enumOperand v).strictEquals (attr.enumOperand w) = true →
        ∀ c ∈ mapping.added prop (.str w),
          c ∈ mapping.classes ∨ c ∈ mapping.added prop (.str v)) := by
  have hresolve (c : String) : c ∈ (library.resolve b.library b.component [(prop, .str v)]).classes ↔
      c ∈ mapping.classes ∨ c ∈ mapping.added prop (.str v) := by
    simp [h.resolve_eq, BaseResolution.mem_classes_ofMapping]
  have hpresent (c : String) := h.present_iff hattr (List.ne_nil_of_mem hv) truth env c
  simp only [hpresent, hresolve, henv]
  by_cases hskip : Forwarded.isSkipped prop = true
  · simp only [hskip, if_true, Bool.true_eq_false, false_and, or_false]
    constructor
    · intro hall
      exact ⟨fun hfor d hd c hc => (hall c).1 (.inr ⟨hfor, d, hd, hc⟩),
        fun c hc => (hall c).2 (.inr hc)⟩
    · rintro ⟨hdefault, hown⟩ c
      constructor
      · rintro (hc | ⟨hfor, d, hd, hc⟩)
        · exact .inl hc
        · exact hdefault hfor d hd c hc
      · rintro (hc | hc)
        · exact .inl hc
        · exact hown c hc
  · have hlooked : Forwarded.isSkipped prop = false := by simpa using hskip
    simp only [hlooked, Bool.false_eq_true, if_false, true_and]
    constructor
    · intro hall
      exact ⟨fun hfor d hd c hc => (hall c).1 (.inr (.inl ⟨hfor, d, hd, hc⟩)),
        fun w hw hsame c hc => (hall c).1 (.inr (.inr ⟨w, hw, hsame, hc⟩))⟩
    · rintro ⟨hdefault, hequal⟩ c
      constructor
      · rintro (hc | ⟨hfor, d, hd, hc⟩ | ⟨w, hw, hsame, hc⟩)
        · exact .inl hc
        · exact hdefault hfor d hd c hc
        · exact hequal w hw hsame c hc
      · rintro (hc | hc)
        · exact .inl hc
        · exact .inr (.inr ⟨v, hv, attr.enumOperand_equals_self v, hc⟩)

/-! ### A note that wraps an alert -/

def noteSource : Source :=
  { name := "Note", propsType := none, attributes := [], defaults := {}, destructuring := none
    imports := [{ source := Builtin.libraryName, names := [⟨"Alert", "Alert"⟩] }]
    types := {}, preamble := [], renderBody := [], renderLine := 1, dynamicTag := none, text := [] }

def noteRoot : Element := ⟨"Alert", [⟨"type", .expression "kind"⟩], [], [], true, 0, 0⟩

def noteKind : Attribute :=
  { name := "kind", types := [.string], enumValues := ["info", "error"]
    default := some (.actual (.str "info")) }

/-- A note that hands on its kind, by default `info`: its classes are those of such an alert. -/
theorem note_root_follows_default :
    (∃ mapping, Wrapping {} noteSource noteRoot ⟨Builtin.libraryName, "Alert"⟩ mapping "type" "kind"
      "kind") ∧
    ∀ c, (RootPlan.make {} noteSource noteRoot [noteKind]).classes.Present (fun _ => False)
        (fun _ => .str "info") c ↔
      c ∈ (({} : BaseLibrary).resolve Builtin.libraryName "Alert" [("type", .str "info")]).classes := by
  obtain ⟨mapping, hmapping⟩ : ∃ m, ({} : BaseLibrary).mapping? Builtin.libraryName "Alert" = some m :=
    Option.isSome_iff_exists.1 (by decide)
  have h : Wrapping {} noteSource noteRoot ⟨Builtin.libraryName, "Alert"⟩ mapping "type" "kind"
      "kind" :=
    { component := by decide
      base := by decide
      mapped := hmapping
      handed := by decide
      others := fun q hq => .inl (by simpa [noteRoot] using hq)
      handsOn := ⟨by decide, .inl (by decide)⟩
      noClasses := by decide
      noSwitch := by decide }
  have hdefault : declaredDefault? [noteKind] "kind" = some (.str "info") := rfl
  have hlooked : ¬ Forwarded.isSkipped "type" = true := by decide
  have hothers : ∀ w ∈ noteKind.enumValues,
      (noteKind.enumOperand "info").strictEquals (noteKind.enumOperand w) = true → w = "info" := by
    decide
  have hvalue : "info" ∈ noteKind.enumValues := by decide
  refine ⟨⟨mapping, h⟩, (root_classes_follow_value_iff h rfl hvalue _ rfl).2 ⟨?_, ?_⟩⟩
  · intro _ d hd c hc
    rw [hdefault, Option.mem_some_iff] at hd
    exact .inr (hd ▸ hc)
  · rw [if_neg hlooked]
    intro w hw hsame c hc
    exact .inr (hothers w hw hsame ▸ hc)

/-- The class of the default stays on a note of the other kind. -/
theorem note_root_keeps_default_class :
    ¬ ∀ c, (RootPlan.make {} noteSource noteRoot [noteKind]).classes.Present (fun _ => False)
        (fun _ => .str "error") c ↔
      c ∈ (({} : BaseLibrary).resolve Builtin.libraryName "Alert" [("type", .str "error")]).classes := by
  intro h
  exact absurd ((h "utrecht-alert--info").1 (.inl (by decide))) (by decide)

end JsxToJinja
