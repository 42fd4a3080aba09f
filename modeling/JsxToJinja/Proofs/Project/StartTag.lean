import JsxToJinja.Proofs.Base.ResolvedAttributes
import JsxToJinja.Proofs.Project.RootProps
import Mathlib.Data.List.Nodup

/-! Names in the start tag of a root. A static attribute gives way to a component attribute of its name.
Nothing else does, so a name can come twice where a property of the root switches an attribute of the
base component on. -/
namespace JsxToJinja
open JsxToJinja.Text JsxToJinja.Markup

namespace Jinja

/-- An attribute in the start tag of the root. It is shown while its condition, if it has one, is
true. -/
structure StartAttribute where
  condition : Option String := none
  name : String
  value : Option String := none

namespace StartAttribute

def text (a : StartAttribute) : String :=
  let shown := match a.value with
    | some value => TemplateInput.attributeText a.name value
    | none => a.name
  match a.condition with
  | some c => guarded c shown
  | none => shown

/-- The attribute is there when the template renders. `truth` is the truth of the conditions. -/
def isShown (truth : String → Bool) (a : StartAttribute) : Bool := a.condition.all truth

end StartAttribute

namespace TemplateInput

variable (input : TemplateInput) (truth : String → Bool)

/-- The static attributes that no component attribute takes the place of. -/
def keptStatic : List StartAttribute :=
  (input.root.attributes.filter fun a => input.forwarded.all (·.2 != a.1)).map fun a =>
    { name := a.1, value := some (escapeAttribute a.2) }

def conditionalStart : List StartAttribute :=
  input.root.conditional.map fun c =>
    { condition := some (input.jinja c.condition), name := c.name,
      value := some (escapeAttribute c.value) }

def forwardedStart (a : Attribute) (html : String) : StartAttribute :=
  let v := input.names.resolve a.name
  if a.isBoolean then { condition := some v, name := html }
  else { name := html, value := some (output v) }

def startAttributes (options : Options) : List StartAttribute :=
  [{ name := "class", value := some (output (options.classVar ++ " | join(' ')")) },
    { name := "data-roos-component", value := some input.name }] ++
  input.keptStatic ++ input.conditionalStart ++
  input.forwarded.map fun f => input.forwardedStart f.1 f.2

def shownNames (options : Options) : List String :=
  ((input.startAttributes options).filter (·.isShown truth)).map (·.name)

theorem text_forwardedStart (a : Attribute) (html : String) :
    (input.forwardedStart a html).text = input.forwardedText a html := by
  rw [forwardedStart, forwardedText]
  split <;> rfl

/-- A component attribute is in the start tag under a name. A boolean one is there while it is true. -/
structure Carries (names : NameMap) (a : Attribute) (html : String) : Prop where
  named : String.ofList (a.name.toList.map Char.toLower) = html
  known : html ∈ rootAttributeNames
  set : a.isBoolean = true → truth (names.resolve a.name) = true

def carriedName? (names : NameMap) (a : Attribute) : Option String :=
  let html := String.ofList (a.name.toList.map Char.toLower)
  if rootAttributeNames.contains html && (!a.isBoolean || truth (names.resolve a.name)) then some html
  else none

variable {truth} in
/-- A component attribute has a name in the start tag just when it is carried there under it. -/
theorem carriedName?_eq_some_iff {names : NameMap} {a : Attribute} {html : String} :
    carriedName? truth names a = some html ↔ Carries truth names a html := by
  simp only [carriedName?]
  constructor
  · intro h
    split at h
    · rename_i hshown
      cases h
      simp only [Bool.and_eq_true, List.contains_iff_mem, Bool.or_eq_true, Bool.not_eq_true'] at hshown
      exact ⟨rfl, hshown.1, fun hb => hshown.2.resolve_left (by simp [hb])⟩
    · cases h
  · rintro ⟨rfl, hknown, hset⟩
    rw [if_pos]
    simp only [Bool.and_eq_true, List.contains_iff_mem, Bool.or_eq_true, Bool.not_eq_true']
    refine ⟨hknown, ?_⟩
    cases hb : a.isBoolean with
    | true => exact .inr (hset hb)
    | false => exact .inl rfl

theorem isShown_forwardedStart (a : Attribute) (html : String) :
    (input.forwardedStart a html).isShown truth =
      (!a.isBoolean || truth (input.names.resolve a.name)) := by
  rw [forwardedStart]
  cases a.isBoolean <;> rfl

theorem name_forwardedStart (a : Attribute) (html : String) :
    (input.forwardedStart a html).name = html := by
  rw [forwardedStart]
  split <;> rfl

theorem names_forwardedStart :
    (((input.forwarded.map fun f => input.forwardedStart f.1 f.2).filter (·.isShown truth)).map
      (·.name)) = input.attributes.filterMap (carriedName? truth input.names) := by
  rw [List.filter_map, List.map_map, forwarded]
  induction input.attributes with
  | nil => rfl
  | cons a rest ih =>
    simp only [Function.comp_def, isShown_forwardedStart, name_forwardedStart] at ih ⊢
    rw [List.map_cons, List.filter_cons, List.filterMap_cons, ← ih, carriedName?]
    cases rootAttributeNames.contains (String.ofList (a.name.toList.map Char.toLower)) with
    | false => rfl
    | true =>
      rw [if_pos rfl, List.filter_cons]
      cases (!a.isBoolean || truth (input.names.resolve a.name)) with
      | false => rfl
      | true => rfl

variable {input}

/-- What the generator writes for the start tag. -/
theorem startTag_eq (hpass : input.passThrough = []) (options : Options) :
    (input.startTag options).map (·.text) = ("<" ++ input.rootTag) ::
      ((input.startAttributes options).map (·.text) ++
        [output "events.render_extra_attributes(_component_context)" ++ ">"]) := by
  have hentries : input.rootEntries.map (·.2) =
      (input.keptStatic ++ input.conditionalStart ++
        input.forwarded.map fun f => input.forwardedStart f.1 f.2).map (·.text) := by
    simp only [rootEntries, keptStatic, conditionalStart, hpass, List.filter_nil, List.map_nil,
      List.append_nil, List.map_append, List.map_map, Function.comp_def, text_forwardedStart]
    rfl
  have htop (items : List String) : (items.map Line.top).map (·.text) = items := by
    rw [List.map_map]
    exact List.map_id items
  rw [startTag, List.map_cons, Line.map_text_deeper, rootAttributes_eq, closeLast_append, hentries, htop]
  simp only [startAttributes, List.map_append, List.map_cons, List.append_assoc]
  rfl

end TemplateInput

end Jinja

namespace Project

namespace Parts

variable (x : Parts) (library : BaseLibrary) (truth : String → Bool)

def staticNames : List String := Dict.keys (x.plan library).element.attributes

def Carries (a : Attribute) (name : String) : Prop :=
  Jinja.TemplateInput.Carries truth (.ofAttributes x.attributes) a name

/-- The attributes that a property of the root switches on: those that the base component has while
the property is set, and not, or not with the same value, without any. The property is set while the
boolean attribute that it hands on is true. -/
def switched (q : Property) : List String :=
  match (x.plan library).base, RootPlan.forwardedFlag? x.attributes q with
  | some b, some a =>
    if truth (Jinja.translate (.ofAttributes x.attributes) a.name) then
      ((library.resolve b.library b.component [(q.name, .bool true)]).attributes.filter fun e =>
        Dict.get? (library.resolve b.library b.component []).attributes e.1 != some e.2).map (·.1)
    else []
  | _, _ => []

/-- The parts of the start tag share no name: what is always there, static attributes, what properties
of the root switch on, and component attributes. -/
structure NamesApart : Prop where
  static : ∀ name ∈ x.staticNames library, name ≠ "class" ∧ name ≠ "data-roos-component"
  switched : ∀ q ∈ x.root.value.props, ∀ name ∈ x.switched library truth q,
    name ≠ "class" ∧ name ≠ "data-roos-component"
  /-- A static attribute of the name has given way to a component attribute. -/
  fromStatic : ∀ q ∈ x.root.value.props, ∀ name ∈ x.switched library truth q,
    name ∈ x.staticNames library → ∃ a ∈ x.attributes,
      String.ofList (a.name.toList.map Char.toLower) = name ∧
        name ∈ Jinja.TemplateInput.rootAttributeNames
  fromAttributes : ∀ q ∈ x.root.value.props, ∀ name ∈ x.switched library truth q,
    ∀ a ∈ x.attributes, ¬ x.Carries truth a name
  properties : x.root.value.props.Pairwise fun q r =>
    List.Disjoint (x.switched library truth q) (x.switched library truth r)
  attributes : x.attributes.Pairwise fun a b =>
    ∀ name, x.Carries truth a name → ¬ x.Carries truth b name

variable {x library truth}

/-- Attributes of the root are in order. -/
theorem nodup_staticNames (h : BaseLibrary.TableSorted library.mappings) :
    (x.staticNames library).Nodup := by
  refine Dict.nodup_keys ?_
  simp only [plan, RootPlan.make]
  have hresolved (base : Option BaseComponentRef) :
      (RootPlan.resolveRoot library base x.root.value x.attributes
        x.source.renderLine).value.attributes.Pairwise fun a b => a.1 < b.1 := by
    cases base with
    | some b => exact BaseLibrary.sorted_resolve h _ _ _
    | none =>
      rw [RootPlan.resolveRoot.eq_def]
      dsimp only
      split <;> exact .nil
  split
  · exact hresolved _
  · exact Dict.sorted_union (hresolved _) _

theorem nodup_switched (h : BaseLibrary.TableSorted library.mappings) (q : Property) :
    (x.switched library truth q).Nodup := by
  rw [switched]
  split
  · split
    · exact ((List.filter_sublist).map _).nodup (Dict.nodup_keys (BaseLibrary.sorted_resolve h _ _ _))
    · exact .nil
  · exact .nil

/-- The conditional attributes that are shown are those that the properties of the root
switch on. -/
theorem names_conditionalStart (name sourceFile : String) :
    (((x.input library name sourceFile).conditionalStart.filter (·.isShown truth)).map (·.name)) =
      x.root.value.props.flatMap (x.switched library truth) := by
  have hconditional : (x.input library name sourceFile).root.conditional =
      ((x.plan library).base.map
        (RootPlan.conditionalAttributes library · x.root.value x.attributes)).getD [] := rfl
  rw [Jinja.TemplateInput.conditionalStart, hconditional, List.filter_map, List.map_map]
  cases hbase : (x.plan library).base with
  | none => simp [switched, hbase]
  | some b =>
    rw [Option.map_some, Option.getD_some, RootPlan.conditionalAttributes, List.filter_flatMap,
      List.map_flatMap]
    congr 1
    funext q
    rw [switched, hbase]
    cases RootPlan.forwardedFlag? x.attributes q with
    | none => rfl
    | some a =>
      dsimp only
      rw [List.filter_map, List.map_map]
      change (List.filter (fun _ : String × String =>
        truth (Jinja.translate (.ofAttributes x.attributes) a.name)) _).map (·.1) = _
      split
      · rename_i htruth
        rw [htruth, List.filter_true]
      · rename_i htruth
        rw [Bool.not_eq_true] at htruth
        rw [htruth, List.filter_false, List.map_nil]

/-- A static attribute stays, unless a component attribute of its name takes its place. -/
theorem mem_keptStatic {name file html : String} :
    html ∈ (x.input library name file).keptStatic.map (·.name) ↔
      html ∈ x.staticNames library ∧ ¬ ∃ a ∈ x.attributes,
        String.ofList (a.name.toList.map Char.toLower) = html ∧
          html ∈ Jinja.TemplateInput.rootAttributeNames := by
  have hstatic : (x.input library name file).root.attributes = (x.plan library).element.attributes := rfl
  have hattributes : (x.input library name file).attributes = x.attributes := rfl
  simp only [Jinja.TemplateInput.keptStatic, Jinja.TemplateInput.forwarded, hstatic, hattributes,
    staticNames, Dict.keys, List.map_map, List.mem_map, List.mem_filter, List.all_eq_true, bne_iff_ne,
    List.contains_iff_mem, Function.comp_apply]
  constructor
  · rintro ⟨e, ⟨he, hfree⟩, rfl⟩
    refine ⟨⟨e, he, rfl⟩, ?_⟩
    rintro ⟨a, ha, hname, hknown⟩
    exact hfree _ ⟨⟨a, ha, rfl⟩, hname ▸ hknown⟩ hname
  · rintro ⟨⟨e, he, rfl⟩, hfree⟩
    refine ⟨e, ⟨he, ?_⟩, rfl⟩
    rintro _ ⟨⟨a, ha, rfl⟩, hknown⟩ hname
    exact hfree ⟨a, ha, hname, hname ▸ hknown⟩

theorem nodup_keptStatic (h : BaseLibrary.TableSorted library.mappings) (name file : String) :
    ((x.input library name file).keptStatic.map (·.name)).Nodup := by
  rw [Jinja.TemplateInput.keptStatic, List.map_map]
  exact ((List.filter_sublist).map _).nodup (nodup_staticNames h)

theorem mem_carried {html : String} :
    html ∈ x.attributes.filterMap
        (Jinja.TemplateInput.carriedName? truth (.ofAttributes x.attributes)) ↔
      ∃ a ∈ x.attributes, x.Carries truth a html := by
  simp only [List.mem_filterMap, Jinja.TemplateInput.carriedName?_eq_some_iff, Carries]

theorem nodup_carried : (x.attributes.filterMap
      (Jinja.TemplateInput.carriedName? truth (.ofAttributes x.attributes))).Nodup ↔
    x.attributes.Pairwise fun a b => ∀ name, x.Carries truth a name → ¬ x.Carries truth b name := by
  rw [List.Nodup, List.pairwise_filterMap]
  simp only [Jinja.TemplateInput.carriedName?_eq_some_iff, Carries]
  constructor
  · exact fun h => h.imp fun hab name ha hb => hab name ha name hb rfl
  · exact fun h => h.imp fun hab name ha name' hb (he : name = name') => hab name ha (he ▸ hb)

theorem Carries.ne_own {a : Attribute} {html : String} (h : x.Carries truth a html) :
    html ∉ ["class", "data-roos-component"] := by
  have hown : ∀ own ∈ ["class", "data-roos-component"],
      own ∉ Jinja.TemplateInput.rootAttributeNames := by decide
  exact fun hmem => hown html hmem h.known

theorem shownNames_input (name file : String) (options : Jinja.Options) :
    (x.input library name file).shownNames truth options =
      ["class", "data-roos-component"] ++ (x.input library name file).keptStatic.map (·.name) ++
      x.root.value.props.flatMap (x.switched library truth) ++
      x.attributes.filterMap (Jinja.TemplateInput.carriedName? truth (.ofAttributes x.attributes)) := by
  have hkept : (x.input library name file).keptStatic.filter (·.isShown truth) =
      (x.input library name file).keptStatic := by
    refine List.filter_eq_self.2 fun a ha => ?_
    obtain ⟨e, -, rfl⟩ := List.mem_map.1 ha
    rfl
  rw [Jinja.TemplateInput.shownNames, Jinja.TemplateInput.startAttributes, List.filter_append,
    List.filter_append, List.filter_append, List.map_append, List.map_append, List.map_append,
    Jinja.TemplateInput.names_forwardedStart, names_conditionalStart, hkept]
  rfl

/-- No name comes twice in the start tag exactly if the parts that it is put together from share
none. -/
theorem nodup_shownNames_iff (h : BaseLibrary.TableSorted library.mappings) (name file : String)
    (options : Jinja.Options) :
    ((x.input library name file).shownNames truth options).Nodup ↔ x.NamesApart library truth := by
  have hown : ["class", "data-roos-component"].Nodup := by decide
  have hpair {html : String} : html ∉ ["class", "data-roos-component"] ↔
      html ≠ "class" ∧ html ≠ "data-roos-component" := by simp
  rw [shownNames_input, List.nodup_append', List.nodup_append', List.nodup_append']
  simp only [List.disjoint_append_left, nodup_carried, List.nodup_flatMap]
  constructor
  · rintro ⟨⟨⟨-, -, hstatic⟩, ⟨-, hprops⟩, hswitched, hfrom⟩, hattributes, ⟨-, -⟩, hcarried⟩
    refine ⟨fun n hn => ?_, fun q hq n hn => ?_, fun q hq n hn hn' => ?_, fun q hq n hn a ha hcarry => ?_,
      hprops, hattributes⟩
    · by_cases hgone : ∃ a ∈ x.attributes, String.ofList (a.name.toList.map Char.toLower) = n ∧
          n ∈ Jinja.TemplateInput.rootAttributeNames
      · obtain ⟨a, -, -, hknown⟩ := hgone
        constructor <;> rintro rfl <;> exact absurd hknown (by decide)
      · exact hpair.1 fun hmem => hstatic hmem (mem_keptStatic.2 ⟨hn, hgone⟩)
    · exact hpair.1 fun hmem => hswitched hmem (List.mem_flatMap.2 ⟨q, hq, hn⟩)
    · exact Classical.byContradiction fun hgone =>
        hfrom (mem_keptStatic.2 ⟨hn', hgone⟩) (List.mem_flatMap.2 ⟨q, hq, hn⟩)
    · exact hcarried (List.mem_flatMap.2 ⟨q, hq, hn⟩) (mem_carried.2 ⟨a, ha, hcarry⟩)
  · intro hapart
    refine ⟨⟨⟨hown, nodup_keptStatic h _ _, fun n hmem hn => ?_⟩,
      ⟨fun q _ => nodup_switched h q, hapart.properties⟩, fun n hmem hn => ?_, fun n hkept hn => ?_⟩,
      hapart.attributes, ⟨fun n hmem hn => ?_, fun n hkept hn => ?_⟩, fun n hn hcarried => ?_⟩
    · exact hpair.2 (hapart.static n (mem_keptStatic.1 hn).1) hmem
    · obtain ⟨q, hq, hn⟩ := List.mem_flatMap.1 hn
      exact hpair.2 (hapart.switched q hq n hn) hmem
    · obtain ⟨q, hq, hn⟩ := List.mem_flatMap.1 hn
      obtain ⟨hstatic, hgone⟩ := mem_keptStatic.1 hkept
      exact hgone (hapart.fromStatic q hq n hn hstatic)
    · obtain ⟨a, -, hcarry⟩ := mem_carried.1 hn
      exact hcarry.ne_own hmem
    · obtain ⟨a, ha, hcarry⟩ := mem_carried.1 hn
      exact (mem_keptStatic.1 hkept).2 ⟨a, ha, hcarry.named, hcarry.known⟩
    · obtain ⟨q, hq, hn⟩ := List.mem_flatMap.1 hn
      obtain ⟨a, ha, hcarry⟩ := mem_carried.1 hcarried
      exact hapart.fromAttributes q hq n hn a ha hcarry

end Parts

variable {p : Project} {w w' : Workspace} {s : Summary}

/-- After a conversion without attributes that are passed on, no name comes twice in the start tag that
the template renders, exactly if the parts that the tag is put together from share none. -/
theorem start_tag_repeats_none_iff {root : String} {config : Config} {tree : FileTree}
    (hp : Project.make root config tree = .ok p) (time component : String) (options : ConvertOptions)
    (h : (p.convert time component options).run.run w = (.ok s, w')) :
    ∃ depth f, depthBound w.tree = depth + 1 ∧ (p.locate component).run.run w = (.ok f, w) ∧
      ∃ c : Course p time (p.convertWithin time depth) [options.outputName.getD f.component]
        (options.outputName.getD f.component) f options w w' s,
      (w'.tree = c.output.writeTo p.layout (options.outputName.getD f.component) time c.reported.tree ∨
        ∃ text, w'.tree = (c.output.writeTo p.layout (options.outputName.getD f.component) time
          c.reported.tree).write p.layout.registry text) ∧
      (∃ before, c.output.template = Jinja.Line.renderAll "    "
        (before ++ (c.input.rootLines {}).value)) ∧
      Jinja.Line.Hold (· = c.input.startTag {}) (c.input.rootLines {}).value ∧
      (c.parts.applied.passThrough = [] →
        (c.input.startTag {}).map (·.text) = ("<" ++ c.input.rootTag) ::
          ((c.input.startAttributes {}).map (·.text) ++
            [Jinja.output "events.render_extra_attributes(_component_context)" ++ ">"]) ∧
        ∀ truth, (c.input.shownNames truth {}).Nodup ↔ c.parts.NamesApart p.library truth) := by
  obtain ⟨depth, f, hdepth, hlocate, ⟨c⟩⟩ := course_of_convert h
  refine ⟨depth, f, hdepth, hlocate, c, c.written.2, ⟨_, rfl⟩, Jinja.TemplateInput.hold_startTag _ _,
    fun hpass => ⟨Jinja.TemplateInput.startTag_eq hpass {}, fun truth => ?_⟩⟩
  exact Parts.nodup_shownNames_iff (BaseLibrary.tableSorted_of_make hp) _ _ _

/-! ### A button that can be disabled -/

def disabledNote : Workspace :=
  noteWorkspace ("import \x7bButton\x7d from '@utrecht/component-library-react';" ++
    "type P = \x7bdisabled: boolean\x7d;" ++
    "const Note = (\x7bdisabled\x7d: P) => <Button disabled=\x7bdisabled\x7d />;")

def namesInNote (x : Parts) (truth : Bool) : List String :=
  (x.input standardProject.library "note"
    (standardProject.layout.relative noteFiles.template)).shownNames (fun _ => truth) {}

def isDisabledNote (x : Parts) : Bool :=
  x.applied.passThrough.isEmpty &&
    namesInNote x false == ["class", "data-roos-component", "type"] &&
    namesInNote x true == ["class", "data-roos-component", "type", "disabled", "disabled"]

theorem isDisabledNote_iff {x : Parts} : isDisabledNote x = true ↔
    x.applied.passThrough = [] ∧ namesInNote x false = ["class", "data-roos-component", "type"] ∧
      namesInNote x true = ["class", "data-roos-component", "type", "disabled", "disabled"] := by
  simp [isDisabledNote, and_assoc]

theorem make_standardProject : Project.make "/p" {} { files := [] } = .ok standardProject := rfl

theorem course_disabledNote :
    ∃ s w', (standardProject.convert "" "note" {}).run.run disabledNote = (.ok s, w') ∧
      ∃ depth, depthBound disabledNote.tree = depth + 1 ∧
        ∃ c : Course standardProject "" (standardProject.convertWithin "" depth) ["note"] "note"
          noteFiles {} disabledNote w' s, isDisabledNote c.parts = true := by
  obtain ⟨s, w', hconvert, c, htest⟩ := course_of_note isDisabledNote
    (rfl : disabledNote = noteWorkspace _) (by
      rw [String.toList_append, String.toList_append, String.toList_ofList, String.toList_ofList,
        String.toList_ofList]) fun text htext => by
      rw [Source.parse, htext]
      decide +kernel
  exact ⟨s, w', hconvert, _, depthBound_noteWorkspace _, c, htest⟩

/-- While the attribute is not set nothing comes twice. -/
theorem enabled_button_repeats_none :
    ∃ s w', Project.make "/p" {} { files := [] } = .ok standardProject ∧
      (standardProject.convert "" "note" {}).run.run disabledNote = (.ok s, w') ∧
      ∃ depth f, ∃ c : Course standardProject "" (standardProject.convertWithin "" depth)
          [f.component] f.component f {} disabledNote w' s,
        c.parts.applied.passThrough = [] ∧
        (c.input.shownNames (fun _ => false) {}).Nodup ∧
        c.parts.NamesApart standardProject.library fun _ => false := by
  obtain ⟨s, w', hconvert, depth₀, hdepth, c₀, htest⟩ := course_disabledNote
  obtain ⟨depth, f, hbound, hfiles, c, -, -, -, hnames⟩ :=
    start_tag_repeats_none_iff make_standardProject "" "note" {} hconvert
  cases hfiles.symm.trans (locate_note _)
  obtain rfl : depth = depth₀ := by omega
  rw [← c.parts_unique c₀, isDisabledNote_iff] at htest
  obtain ⟨hpass, hshown, -⟩ := htest
  have hnodup : (c.input.shownNames (fun _ => false) {}).Nodup := by
    have hinput : c.input.shownNames (fun _ => false) {} = _ := hshown
    rw [hinput]
    decide
  exact ⟨s, w', make_standardProject, hconvert, _, _, c, hpass, hnodup, ((hnames hpass).2 _).1 hnodup⟩

/-- While it is set, the button has the attribute of the library and the one of the component. -/
theorem disabled_button_repeats_name :
    ∃ s w', (standardProject.convert "" "note" {}).run.run disabledNote = (.ok s, w') ∧
      ∃ depth, ∃ c : Course standardProject "" (standardProject.convertWithin "" depth) ["note"]
          "note" noteFiles {} disabledNote w' s,
        c.parts.applied.passThrough = [] ∧
        c.input.shownNames (fun _ => true) {} =
          ["class", "data-roos-component", "type", "disabled", "disabled"] ∧
        ¬ (c.input.shownNames (fun _ => true) {}).Nodup := by
  obtain ⟨s, w', hconvert, _, -, c, htest⟩ := course_disabledNote
  obtain ⟨hpass, -, hshown⟩ := isDisabledNote_iff.1 htest
  have hinput : c.input.shownNames (fun _ => true) {} = _ := hshown
  exact ⟨s, w', hconvert, _, c, hpass, hinput, fun hnodup => absurd (hinput ▸ hnodup) (by decide)⟩

end Project

end JsxToJinja
