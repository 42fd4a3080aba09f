import JsxToJinja.Proofs.Classes.Presence
import JsxToJinja.Proofs.Project.BareComponents
import JsxToJinja.Proofs.Project.ShownContent

/-! Items for review: where they come up in a conversion, and which of them are listed. -/
namespace JsxToJinja
open JsxToJinja.Text JsxToJinja.Code JsxToJinja.Markup

namespace Jinja.TemplateInput

/-- Code that the classes of an element in the content are read from. -/
inductive ReadsClasses (input : TemplateInput) (code : String) : Prop where
  | intro {u : Usage} {children : List Content} {p : Property}
    (shown : .element u children ∈ input.shownInRoot) (mem : p ∈ u.props)
    (rendered : isRendered p = true) (isClass : htmlName p.name = "class")
    (value : p.value = .expression code) (notText : stringLiteral? code.toList = none)

end Jinja.TemplateInput

namespace Project

variable {p : Project} {time name : String} {convert : Converter} {chain : List String}
  {f : SourceFiles} {options : ConvertOptions} {w w' : Workspace} {s : Summary}

namespace Course

variable (c : Course p time convert chain name f options w w' s)

/-- Items that come up where nothing takes note of them. -/
inductive Unlisted (item : ReviewItem) : Prop where
  /-- A base component in the content, under its properties. -/
  | inlineBase {entry : String × BaseResolution} (mem : entry ∈ c.input.inlineComponents)
    (produced : item ∈ entry.2.review)
  /-- The base component of the root, under a flag that a property hands on. -/
  | flagOfBase {b : BaseComponentRef} {q : Property} {a : Attribute} (base : c.plan.base = some b)
    (mem : q ∈ c.parts.root.value.props)
    (flag : RootPlan.forwardedFlag? c.parts.attributes q = some a)
    (produced : item ∈ (p.library.resolve b.library b.component [(q.name, .bool true)]).review)
  /-- The classes of an element in the content. -/
  | contentClasses {code : String} (reads : c.input.ReadsClasses code)
    (produced : item ∈ (ClassExpression.extract c.parts.attributes code.toList).review)

/-- Items that come up while a component is converted. -/
inductive Produced : ReviewItem → Prop where
  /-- A fragment that gives way to its first element. -/
  | fragment {item : ReviewItem} (produced : item ∈ c.parts.root.review) : Produced item
  /-- A component in the content that could not be converted. -/
  | nested {item : ReviewItem} {n : NestedComponent} {outcome : NestedOutcome}
    (mem : (n, outcome) ∈ c.parts.nested.zip c.outcomes)
    (produced : failureItem? (n, outcome) = some item) : Produced item
  /-- A root that is not known. -/
  | unknownRoot {item : ReviewItem}
    (produced : item ∈ (RootPlan.resolveRoot p.library c.plan.base c.parts.root.value
      c.parts.attributes c.parts.source.renderLine).review) : Produced item
  /-- The base component of the root. -/
  | rootBase {item : ReviewItem} (produced : item ∈ c.plan.resolution.review) : Produced item
  /-- Properties of the root that nothing accounts for. -/
  | unmapped {item : ReviewItem}
    (produced : item ∈ RootPlan.unmappedReview c.parts.source.renderLine c.plan.resolution
      c.plan.classes) : Produced item
  /-- The classes of the root. -/
  | rootClasses {item : ReviewItem}
    (produced : item ∈ (RootPlan.classProperty c.parts.root.value c.parts.attributes).review) :
    Produced item
  /-- The classes that a property of the root stands for. -/
  | propertyClasses {item : ReviewItem} {b : BaseComponentRef} {q : Property}
    (base : c.plan.base = some b) (mem : q ∈ c.parts.root.value.props)
    (produced : item ∈ (Forwarded.ofProp c.parts.attributes
      (p.library.classesFor b.library b.component) c.plan.resolution.classes
      ((Switch.parseAll c.parts.source.text).flatMap (RootPlan.carriers c.parts.root.value))
      q).review) : Produced item
  /-- The content; an item without a line is one on all that is rendered. -/
  | content {item : ReviewItem}
    (produced : item ∈ (Content.ofRoot c.parts.root.value c.parts.source.preamble).review) :
    Produced (atLine c.parts.source.renderLine item)
  /-- The template. -/
  | template {item : ReviewItem} (produced : item ∈ (c.input.compile {}).review) : Produced item
  | unlisted {item : ReviewItem} (h : c.Unlisted item) : Produced item

variable {c} {item : ReviewItem}

/-- What the class property says comes first, then what the properties of a base component say. -/
theorem review_classes : c.plan.classes.review =
    (RootPlan.classProperty c.parts.root.value c.parts.attributes).review ++
    c.plan.base.toList.flatMap fun b => (Forwarded.extract c.parts.attributes
      (p.library.classesFor b.library b.component) c.plan.resolution.classes c.parts.root.value.props
      ((Switch.parseAll c.parts.source.text).flatMap (RootPlan.carriers c.parts.root.value))).review := by
  simp only [plan, Parts.plan, RootPlan.make]
  generalize (if c.parts.root.value.isComponent = true then _ else none) = base
  cases base with
  | none => exact (List.append_nil _).symm
  | some b => simp [Extraction.expandTemplates, Extraction.merge]

theorem mem_review_of_failure {n : NestedComponent} {outcome : NestedOutcome}
    (hmem : (n, outcome) ∈ c.parts.nested.zip c.outcomes)
    (hitem : failureItem? (n, outcome) = some item) : item ∈ c.parts.failures := by
  rw [(gather_ok c.gathers).2]
  exact List.mem_filterMap.2 ⟨_, hmem, hitem⟩

theorem mem_review_of_property {b : BaseComponentRef} {q : Property} (hbase : c.plan.base = some b)
    (hq : q ∈ c.parts.root.value.props)
    (hitem : item ∈ (Forwarded.ofProp c.parts.attributes
      (p.library.classesFor b.library b.component) c.plan.resolution.classes
      ((Switch.parseAll c.parts.source.text).flatMap (RootPlan.carriers c.parts.root.value))
      q).review) : item ∈ c.plan.classes.review := by
  rw [review_classes, hbase]
  refine List.mem_append_right _ (List.mem_flatMap.2 ⟨b, by simp, ?_⟩)
  rw [Forwarded.extract, Extraction.review_mergeAll]
  exact List.mem_flatMap.2 ⟨_, List.mem_map_of_mem hq, hitem⟩

/-- Every item is listed, unless it comes up where nothing takes note. -/
theorem listed_of_produced (h : c.Produced item) :
    item ∈ c.definition.review ∨ c.Unlisted item := by
  have hplan (hi : item ∈ c.plan.review) : item ∈ c.definition.review := by
    simp [review_definition, hi]
  have hclasses (hi : item ∈ c.plan.classes.review) : item ∈ c.definition.review := by
    simp [review_definition, hi]
  cases h with
  | fragment hi => exact .inl (by simp [review_definition, hi])
  | nested hmem hi =>
    have hfailure := mem_review_of_failure hmem hi
    exact .inl (by simp [review_definition, hfailure])
  | unknownRoot hi => exact .inl (hplan (by simp [review_plan, hi]))
  | rootBase hi => exact .inl (hplan (by simp [review_plan, hi]))
  | unmapped hi => exact .inl (hplan (by simp [review_plan, hi]))
  | rootClasses hi => exact .inl (hclasses (by simp [review_classes, hi]))
  | propertyClasses hbase hq hi => exact .inl (hclasses (mem_review_of_property hbase hq hi))
  | content hi =>
    have hcontent : atLine c.parts.source.renderLine _ ∈ c.parts.content.review :=
      List.mem_map_of_mem hi
    exact .inl (by simp [review_definition, hcontent])
  | template hi => exact .inl (by simp [review_definition, hi])
  | unlisted hi => exact .inr hi

end Course

/-- A conversion that succeeds writes its definition and its report over one list of items, which is
also what it counts. Every item that comes up is listed exactly if those are that come up for base
components in the content, for flags of the root's base component, and for classes of elements in the
content; all others always are. -/
theorem review_lists_all_items_iff (p : Project) (time component : String) (options : ConvertOptions)
    (w w' : Workspace) (s : Summary)
    (h : (p.convert time component options).run.run w = (.ok s, w')) :
    ∃ depth f, depthBound w.tree = depth + 1 ∧ (p.locate component).run.run w = (.ok f, w) ∧
      ∃ c : Course p time (p.convertWithin time depth) [options.outputName.getD f.component]
        (options.outputName.getD f.component) f options w w' s,
      (w'.tree = c.output.writeTo p.layout (options.outputName.getD f.component) time c.reported.tree ∨
        ∃ text, w'.tree = (c.output.writeTo p.layout (options.outputName.getD f.component) time
          c.reported.tree).write p.layout.registry text) ∧
      s.reviewItems = c.definition.review.length ∧
      (∀ item, c.Produced item → ¬c.Unlisted item → item ∈ c.definition.review) ∧
      ((∀ item, c.Produced item → item ∈ c.definition.review) ↔
        ∀ item, c.Unlisted item → item ∈ c.definition.review) := by
  obtain ⟨depth, f, hdepth, hlocate, ⟨c⟩⟩ := course_of_convert h
  refine ⟨depth, f, hdepth, hlocate, c, c.written.2, c.written.1, fun item hp hn => ?_, ?_⟩
  · exact (Course.listed_of_produced hp).resolve_right hn
  · exact ⟨fun hall item hi => hall item (.unlisted hi), fun hall item hp =>
      (Course.listed_of_produced hp).elim id (hall item)⟩

/-! ### Notes with something to look at -/

def sumNote : Workspace := noteWorkspace "const Note = () => <p>\x7ba + 1\x7d</p>;"

def listsItems (count : Nat) (x : Parts) : Bool :=
  (x.output standardProject.library "note" (standardProject.layout.relative
    noteFiles.template)).review.length == count

theorem sum_note_lists_its_item :
    ∃ s w', (standardProject.convert "" "note" {}).run.run sumNote = (.ok s, w') ∧
      s.reviewItems = 1 ∧
      ∃ depth f, ∃ c : Course standardProject "" (standardProject.convertWithin "" depth)
          [f.component] f.component f {} sumNote w' s,
        c.definition.review.length = 1 ∧
        ∀ item, c.Produced item → ¬c.Unlisted item → item ∈ c.definition.review := by
  obtain ⟨s, w', hconvert, c₀, hcount⟩ := course_of_note (listsItems 1)
    (rfl : sumNote = noteWorkspace _) String.toList_ofList fun text htext => by
      rw [Source.parse, htext]
      decide +kernel
  have hitems : s.reviewItems = 1 := c₀.written.1.trans (beq_iff_eq.1 hcount)
  obtain ⟨depth, f, -, -, c, -, hlength, hlisted, -⟩ :=
    review_lists_all_items_iff standardProject "" "note" {} sumNote w' s hconvert
  exact ⟨s, w', hconvert, hitems, depth, f, c, hlength ▸ hitems, hlisted⟩

def toneNote : Workspace :=
  noteWorkspace "const Note = () => <div><p className=\x7bclsx(tone())\x7d>Hello</p></div>;"

def isTone : Content → Bool
  | .element u _ => u.props == [⟨"className", .expression "clsx(tone())"⟩]
  | _ => false

def showsTone (x : Parts) : Bool :=
  x.attributes.isEmpty && listsItems 0 x && (x.input standardProject.library "note"
    (standardProject.layout.relative noteFiles.template)).shownInRoot.any isTone

def toneItem : ReviewItem :=
  ⟨"Unsupported class expression", .medium, some "tone()", none,
    some "Add the class logic to the template by hand"⟩

/-- The item on the paragraph is nowhere to be found. -/
theorem tone_item_not_listed :
    ∃ s w', (standardProject.convert "" "note" {}).run.run toneNote = (.ok s, w') ∧
      ∃ depth, ∃ c : Course standardProject "" (standardProject.convertWithin "" depth) ["note"]
          "note" noteFiles {} toneNote w' s,
        c.Produced toneItem ∧ toneItem ∉ c.definition.review := by
  obtain ⟨s, w', hconvert, c, htest⟩ := course_of_note showsTone
    (rfl : toneNote = noteWorkspace _) String.toList_ofList fun text htext => by
      rw [Source.parse, htext]
      decide +kernel
  rw [showsTone, Bool.and_eq_true, Bool.and_eq_true, List.any_eq_true] at htest
  obtain ⟨⟨hnone, hcount⟩, d, hshown, htone⟩ := htest
  have hattributes : c.parts.attributes = [] := List.isEmpty_iff.1 hnone
  have hlisted : c.definition.review = [] := List.length_eq_zero_iff.1 (beq_iff_eq.1 hcount)
  refine ⟨s, w', hconvert, _, c, .unlisted ?_, ?_⟩
  · cases d with
    | element u children =>
      have hprops : u.props = [⟨"className", .expression "clsx(tone())"⟩] := by
        simpa [isTone] using htone
      have hreads : c.input.ReadsClasses "clsx(tone())" :=
        .intro hshown (hprops ▸ List.mem_singleton_self _) (by decide) (by decide) rfl (by decide)
      refine .contentClasses hreads ?_
      rw [hattributes]
      decide
    | _ => cases htone
  · exact List.eq_nil_iff_forall_not_mem.1 hlisted toneItem

end Project

end JsxToJinja
