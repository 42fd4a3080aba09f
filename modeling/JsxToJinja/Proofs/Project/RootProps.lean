import JsxToJinja.Proofs.Project.BareComponents
import JsxToJinja.Proofs.Project.ShownContent

/-! Properties of a root that is a plain element: which of them its start tag shows, and which are
listed for review. -/
namespace JsxToJinja
open JsxToJinja.Text JsxToJinja.Markup

namespace Dict

variable {α : Type} {name : String}

theorem mem_keys_insert {key : String} {value : α} {dict : Dict α} :
    name ∈ keys (insert key value dict) ↔ name = key ∨ name ∈ keys dict := by
  induction dict with
  | nil => simp [insert, keys]
  | cons e rest ih =>
    rw [insert]
    split
    · simp [keys]
    · split
      · rename_i heq
        simp [keys, beq_iff_eq.1 heq]
      · simp only [keys, List.map_cons, List.mem_cons] at ih ⊢
        rw [ih]
        exact or_left_comm

theorem mem_keys_union {dict other : Dict α} :
    name ∈ keys (union dict other) ↔ name ∈ keys dict ∨ name ∈ keys other := by
  rw [union]
  induction other generalizing dict with
  | nil => simp [keys]
  | cons e rest ih =>
    rw [List.foldl_cons, ih, mem_keys_insert]
    simp only [keys, List.map_cons, List.mem_cons]
    exact or_assoc.trans or_left_comm

end Dict

def ReviewItem.Names (item : ReviewItem) (name : String) : Prop :=
  ∃ text ∈ item.issue :: (item.context.toList ++ item.action.toList), name.toList <:+: text.toList

namespace Jinja

theorem Line.map_text_deeper (ls : List Line) : (deeper ls).map (·.text) = ls.map (·.text) := by
  rw [deeper, List.map_map]
  refine List.map_congr_left fun l _ => ?_
  rw [Function.comp_apply]
  split <;> rfl

namespace TemplateInput

theorem closeLast_append (items : List String) (last : String) :
    closeLast (items ++ [last]) = items ++ [last ++ ">"] := by
  induction items with
  | nil => rfl
  | cons a rest ih =>
    cases rest with
    | nil => rfl
    | cons b rest => simpa [closeLast] using ih

variable (input : TemplateInput)

def forwarded : List (Attribute × String) :=
  (input.attributes.map fun a => (a, String.ofList (a.name.toList.map Char.toLower))).filter fun f =>
    rootAttributeNames.contains f.2

def rootEntries : List (String × String) :=
  ((input.root.attributes.filter fun a => input.forwarded.all (·.2 != a.1)).map fun a =>
    (a.1, attributeText a.1 (escapeAttribute a.2))) ++
  (input.root.conditional.map fun c =>
    (c.name, guarded (input.jinja c.condition) (attributeText c.name (escapeAttribute c.value)))) ++
  (input.forwarded.map fun f => (f.2, input.forwardedText f.1 f.2)) ++
  ((input.passThrough.filter fun p => p.targetElement.all (· == input.rootTag)).map fun p =>
    (p.targetAttribute, input.passText p))

theorem rootAttributes_eq (options : Options) :
    input.rootAttributes options input.rootTag =
      [attributeText "class" (output (options.classVar ++ " | join(' ')")),
        attributeText "data-roos-component" input.name] ++
      input.rootEntries.map (·.2) ++ [output "events.render_extra_attributes(_component_context)"] := by
  simp [rootAttributes, rootEntries, forwarded, Function.comp_def]

/-- The start tag of the root shows a property: it has an attribute of that name. -/
def ShowsProperty (options : Options) (name : String) : Prop :=
  ∃ entry ∈ input.rootEntries, (entry.1 = name ∨ entry.1 = htmlName name) ∧
    entry.2 ∈ (input.startTag options).map (·.text)

variable {input}

theorem mem_startTag {entry : String × String} (h : entry ∈ input.rootEntries) (options : Options) :
    entry.2 ∈ (input.startTag options).map (·.text) := by
  rw [startTag, List.map_cons, Line.map_text_deeper, rootAttributes_eq, closeLast_append]
  simp only [List.map_map, List.map_append, List.mem_cons, List.mem_append, List.mem_map]
  exact .inr (.inl (.inr ⟨entry, h, rfl⟩))

/-- A static attribute gives way to a component attribute of its name, so one of them is there. -/
theorem exists_rootEntry_iff (hconditional : input.root.conditional = []) {name : String} :
    (∃ entry ∈ input.rootEntries, entry.1 = name) ↔
      name ∈ Dict.keys input.root.attributes ∨ (∃ f ∈ input.forwarded, f.2 = name) ∨
      ∃ p ∈ input.passThrough, p.targetElement.all (· == input.rootTag) = true ∧
        p.targetAttribute = name := by
  simp only [rootEntries, hconditional, List.map_nil, List.append_nil, List.mem_append, List.mem_map,
    List.mem_filter, List.all_eq_true, Dict.keys]
  constructor
  · rintro ⟨_, (⟨a, ⟨ha, -⟩, rfl⟩ | ⟨f, hf, rfl⟩) | ⟨p, ⟨hp, htarget⟩, rfl⟩, rfl⟩
    · exact .inl ⟨a, ha, rfl⟩
    · exact .inr (.inl ⟨f, hf, rfl⟩)
    · exact .inr (.inr ⟨p, hp, htarget, rfl⟩)
  · rintro (⟨a, ha, rfl⟩ | ⟨f, hf, rfl⟩ | ⟨p, hp, htarget, rfl⟩)
    · by_cases hforwarded : ∃ f ∈ input.forwarded, f.2 = a.1
      · obtain ⟨f, hf, hname⟩ := hforwarded
        exact ⟨_, .inl (.inr ⟨f, hf, rfl⟩), hname⟩
      · have hfree : ∀ f ∈ input.forwarded, (f.2 != a.1) = true := fun f hf =>
          bne_iff_ne.2 fun hname => hforwarded ⟨f, hf, hname⟩
        exact ⟨_, .inl (.inl ⟨a, ⟨ha, hfree⟩, rfl⟩), rfl⟩
    · exact ⟨_, .inl (.inr ⟨f, hf, rfl⟩), rfl⟩
    · exact ⟨_, .inr ⟨p, ⟨hp, htarget⟩, rfl⟩, rfl⟩

end TemplateInput

end Jinja

namespace RootPlan

variable {root : Element}

/-- A plain root has no base component: nothing comes up about its properties, and it carries those
that are literal. -/
theorem make_plain (library : BaseLibrary) (source : Source) (attributes : List Attribute)
    (h : root.isComponent = false) :
    (make library source root attributes).review = [] ∧
    (make library source root attributes).element.conditional = [] ∧
    (make library source root attributes).element.attributes =
      Dict.union [] (literalAttributes root) := by
  simp [make, h, resolveRoot, plain, unmappedReview]

theorem mem_keys_literalAttributes {name : String} :
    name ∈ Dict.keys (literalAttributes root) ↔
      (∃ q ∈ root.props, q.name = name ∧ ∃ text, q.value = .literal text) ∧
        name ≠ "className" ∧ name ≠ "key" := by
  simp only [Dict.keys, literalAttributes, List.mem_map, List.mem_filterMap]
  constructor
  · rintro ⟨e, ⟨q, hq, he⟩, rfl⟩
    split at he
    · rename_i text hvalue
      split at he
      · rename_i hnamed
        cases he
        simp only [Bool.and_eq_true, bne_iff_ne, ne_eq] at hnamed
        exact ⟨⟨q, hq, rfl, text, hvalue⟩, hnamed⟩
      · cases he
    · cases he
  · rintro ⟨⟨q, hq, rfl, text, hvalue⟩, hclass, hkey⟩
    refine ⟨(q.name, text), ⟨q, hq, ?_⟩, rfl⟩
    simp [hvalue, hclass, hkey]

end RootPlan

namespace Project

variable {p : Project} {time name : String} {convert : Converter} {chain : List String}
  {f : SourceFiles} {options : ConvertOptions} {w w' : Workspace} {s : Summary}

namespace Course

variable (c : Course p time convert chain name f options w w' s)

/-- Where a plain root has an attribute of a name from: a literal property, an attribute of the
component that roots carry, or a customization that passes one on. -/
inductive Carries (name : String) : Prop where
  | literal {q : Property} {text : String} (mem : q ∈ c.parts.root.value.props) (named : q.name = name)
    (value : q.value = .literal text) (free : name ≠ "className" ∧ name ≠ "key")
  | forwarded {a : Attribute} (mem : a ∈ c.parts.attributes)
    (named : String.ofList (a.name.toList.map Char.toLower) = name)
    (known : name ∈ Jinja.TemplateInput.rootAttributeNames)
  | passed {t : Jinja.PassThrough} (mem : t ∈ c.parts.applied.passThrough)
    (target : t.targetElement.all (· == c.input.rootTag) = true) (named : t.targetAttribute = name)

def otherItems : List ReviewItem :=
  c.parts.root.review ++ c.parts.failures ++ c.plan.classes.review ++ c.parts.content.review ++
    (c.input.compile {}).review

variable {c}

/-- The root names an attribute just when something carries it there. -/
theorem exists_rootEntry_iff_carries (h : c.parts.root.value.isComponent = false) {name : String} :
    (∃ entry ∈ c.input.rootEntries, entry.1 = name) ↔ c.Carries name := by
  have hplan := RootPlan.make_plain p.library c.parts.source c.parts.attributes h
  have hkeys : Dict.keys c.input.root.attributes =
      Dict.keys (Dict.union [] (RootPlan.literalAttributes c.parts.root.value)) :=
    congrArg Dict.keys hplan.2.2
  have hforwarded : (∃ f ∈ c.input.forwarded, f.2 = name) ↔ ∃ a ∈ c.parts.attributes,
      String.ofList (a.name.toList.map Char.toLower) = name ∧
        name ∈ Jinja.TemplateInput.rootAttributeNames := by
    simp only [Jinja.TemplateInput.forwarded, List.mem_filter, List.mem_map,
      List.contains_iff_mem]
    constructor
    · rintro ⟨_, ⟨⟨a, ha, rfl⟩, hknown⟩, rfl⟩
      exact ⟨a, ha, rfl, hknown⟩
    · rintro ⟨a, ha, rfl, hknown⟩
      exact ⟨_, ⟨⟨a, ha, rfl⟩, hknown⟩, rfl⟩
  rw [Jinja.TemplateInput.exists_rootEntry_iff hplan.2.1, hkeys, Dict.mem_keys_union,
    RootPlan.mem_keys_literalAttributes, hforwarded]
  constructor
  · rintro ((hnone | ⟨⟨q, hq, hname, text, hvalue⟩, hfree⟩) | ⟨a, ha, hname, hknown⟩ |
      ⟨t, ht, htarget, hname⟩)
    · cases hnone
    · exact .literal hq hname hvalue hfree
    · exact .forwarded ha hname hknown
    · exact .passed ht htarget hname
  · rintro (⟨hq, hname, hvalue, hfree⟩ | ⟨ha, hname, hknown⟩ | ⟨ht, htarget, hname⟩)
    · exact .inl (.inr ⟨⟨_, hq, hname, _, hvalue⟩, hfree⟩)
    · exact .inr (.inl ⟨_, ha, hname, hknown⟩)
    · exact .inr (.inr ⟨_, ht, htarget, hname⟩)

theorem showsProperty_iff (h : c.parts.root.value.isComponent = false) {name : String} :
    c.input.ShowsProperty {} name ↔
      c.Carries name ∨ c.Carries (Jinja.TemplateInput.htmlName name) := by
  rw [← exists_rootEntry_iff_carries h, ← exists_rootEntry_iff_carries h]
  constructor
  · rintro ⟨entry, hentry, hname | hname, -⟩
    · exact .inl ⟨entry, hentry, hname⟩
    · exact .inr ⟨entry, hentry, hname⟩
  · rintro (⟨entry, hentry, hname⟩ | ⟨entry, hentry, hname⟩)
    · exact ⟨entry, hentry, .inl hname, Jinja.TemplateInput.mem_startTag hentry _⟩
    · exact ⟨entry, hentry, .inr hname, Jinja.TemplateInput.mem_startTag hentry _⟩

/-- No item is on a property of a plain root. -/
theorem review_definition_of_plain (h : c.parts.root.value.isComponent = false) :
    c.definition.review = c.otherItems := by
  have hplan : c.plan.review = [] := (RootPlan.make_plain _ _ _ h).1
  rw [review_definition, hplan, otherItems, List.append_nil]

end Course

/-- After a conversion that succeeds, the start tag of a plain root shows a property or an item names
it exactly if the root has an attribute of its name from elsewhere or the property is literal, or if an
item on something else happens to name it. -/
theorem root_property_shown_or_named_iff (p : Project) (time component : String)
    (options : ConvertOptions) (w w' : Workspace) (s : Summary)
    (h : (p.convert time component options).run.run w = (.ok s, w')) :
    ∃ depth f, depthBound w.tree = depth + 1 ∧ (p.locate component).run.run w = (.ok f, w) ∧
      ∃ c : Course p time (p.convertWithin time depth) [options.outputName.getD f.component]
        (options.outputName.getD f.component) f options w w' s,
      (w'.tree = c.output.writeTo p.layout (options.outputName.getD f.component) time c.reported.tree ∨
        ∃ text, w'.tree = (c.output.writeTo p.layout (options.outputName.getD f.component) time
          c.reported.tree).write p.layout.registry text) ∧
      (∃ before, c.output.template = Jinja.Line.renderAll "    "
        (before ++ (c.input.rootLines {}).value)) ∧
      Jinja.Line.Hold (· = c.input.startTag {}) (c.input.rootLines {}).value ∧
      (c.parts.root.value.isComponent = false → ∀ q ∈ c.parts.root.value.props,
        (c.input.ShowsProperty {} q.name ∨ ∃ item ∈ c.definition.review, item.Names q.name) ↔
        (c.Carries q.name ∨ c.Carries (Jinja.TemplateInput.htmlName q.name)) ∨
          ∃ item ∈ c.otherItems, item.Names q.name) := by
  obtain ⟨depth, f, hdepth, hlocate, ⟨c⟩⟩ := course_of_convert h
  refine ⟨depth, f, hdepth, hlocate, c, c.written.2, ⟨_, rfl⟩, Jinja.TemplateInput.hold_startTag _ _,
    fun hplain q _ => ?_⟩
  rw [Course.showsProperty_iff hplain, Course.review_definition_of_plain hplain]

/-! ### Notes with a property on the root -/

def titledNote : Workspace := noteWorkspace "const Note = () => <p title=\x22News\x22 />;"

def hasTitle (value : PropValue) (x : Parts) : Bool :=
  !x.root.value.isComponent && x.root.value.props == [⟨"title", value⟩]

theorem hasTitle_iff {value : PropValue} {x : Parts} : hasTitle value x = true ↔
    x.root.value.isComponent = false ∧ x.root.value.props = [⟨"title", value⟩] := by
  simp [hasTitle]

/-- A note whose root is plain and has a title of its own. -/
theorem titled_note_shows_title :
    ∃ s w', (standardProject.convert "" "note" {}).run.run titledNote = (.ok s, w') ∧
      ∃ depth f, ∃ c : Course standardProject "" (standardProject.convertWithin "" depth)
          [f.component] f.component f {} titledNote w' s,
        c.parts.root.value.isComponent = false ∧
        ⟨"title", .literal "News"⟩ ∈ c.parts.root.value.props ∧
        (c.input.ShowsProperty {} "title" ∨ ∃ item ∈ c.definition.review, item.Names "title") := by
  obtain ⟨s, w', hconvert, c₀, htest⟩ := course_of_note (hasTitle (.literal "News"))
    (rfl : titledNote = noteWorkspace _) String.toList_ofList fun text htext => by
      rw [Source.parse, htext]
      decide +kernel
  obtain ⟨depth, f, hbound, hfiles, c, -, -, -, hshown⟩ :=
    root_property_shown_or_named_iff standardProject "" "note" {} titledNote w' s hconvert
  cases hfiles.symm.trans (locate_note _)
  cases hbound.symm.trans (depthBound_noteWorkspace _)
  rw [← c.parts_unique c₀, hasTitle_iff] at htest
  obtain ⟨hplain, hprops⟩ := htest
  have htitle : ⟨"title", .literal "News"⟩ ∈ c.parts.root.value.props := by simp [hprops]
  refine ⟨s, w', hconvert, _, _, c, hplain, htitle, (hshown hplain _ htitle).2 (.inl (.inl ?_))⟩
  exact .literal htitle rfl rfl (by decide)

def retitledNote : Workspace :=
  noteWorkspace "const Note = (\x7b title \x7d) => <p title=\x7btitle\x7d />;"

def dropsTitle (x : Parts) : Bool :=
  let sourceFile := standardProject.layout.relative noteFiles.template
  hasTitle (.expression "title") x &&
    (x.input standardProject.library "note" sourceFile).rootEntries.all (·.1 != "title") &&
    (x.output standardProject.library "note" sourceFile).review.isEmpty

/-- The title that is handed on is neither shown nor named. -/
theorem handed_on_title_gone :
    ∃ s w', (standardProject.convert "" "note" {}).run.run retitledNote = (.ok s, w') ∧
      ∃ depth, ∃ c : Course standardProject "" (standardProject.convertWithin "" depth) ["note"]
          "note" noteFiles {} retitledNote w' s,
        c.parts.root.value.isComponent = false ∧
        ⟨"title", .expression "title"⟩ ∈ c.parts.root.value.props ∧
        ¬(c.input.ShowsProperty {} "title" ∨ ∃ item ∈ c.definition.review, item.Names "title") := by
  obtain ⟨s, w', hconvert, c, htest⟩ := course_of_note dropsTitle
    (rfl : retitledNote = noteWorkspace _) String.toList_ofList fun text htext => by
      rw [Source.parse, htext]
      decide +kernel
  rw [dropsTitle, Bool.and_eq_true, Bool.and_eq_true, hasTitle_iff] at htest
  obtain ⟨⟨⟨hplain, hprops⟩, hentries⟩, hnone⟩ := htest
  have hlisted : c.definition.review = [] := List.isEmpty_iff.1 hnone
  refine ⟨s, w', hconvert, _, c, hplain, by simp [hprops], ?_⟩
  rintro (⟨entry, hentry, hname, -⟩ | ⟨item, hitem, -⟩)
  · have hhtml : Jinja.TemplateInput.htmlName "title" = "title" := rfl
    rw [hhtml, or_self] at hname
    exact bne_iff_ne.1 (List.all_eq_true.1 hentries entry hentry) hname
  · exact List.eq_nil_iff_forall_not_mem.1 hlisted item hitem

end Project

end JsxToJinja
