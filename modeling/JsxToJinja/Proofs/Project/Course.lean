import JsxToJinja.Proofs.Project.Steps

/-! Conversions that succeed: what every step on the way gave, and the files that are written in the
end. -/
namespace JsxToJinja

namespace Conversion

variable {α β : Type} {w w' : Workspace}

/-- Two steps succeed when the second succeeds on what the first gave. -/
theorem run_bind_ok {x : Conversion α} {f : α → Conversion β} {b : β} :
    (x >>= f).run.run w = (.ok b, w') ↔
      ∃ a w₁, x.run.run w = (.ok a, w₁) ∧ (f a).run.run w₁ = (.ok b, w') := by
  rw [run_bind]
  constructor
  · intro h
    split at h
    · rename_i a w₁ hx
      exact ⟨a, w₁, hx, h⟩
    · cases h
  · rintro ⟨a, w₁, hx, hf⟩
    rw [hx]
    exact hf

theorem run_emit (events : List Event) (w : Workspace) :
    (emit events).run.run w = (.ok (), { w with trace := w.trace ++ events }) := rfl

theorem run_write (path contents : String) (w : Workspace) :
    (write path contents).run.run w = (.ok (), { w with tree := w.tree.write path contents }) := rfl

theorem ofExcept_ok {r : Except ConvertError α} {a : α}
    (h : (ofExcept r : Conversion α).run.run w = (.ok a, w')) : r = .ok a ∧ w' = w := by
  cases r with
  | ok b =>
    cases h
    exact ⟨rfl, rfl⟩
  | error e => cases h

theorem IsQuiet.tree_eq {x : Conversion α} (hx : IsQuiet x) {r : Except ConvertError α}
    (h : x.run.run w = (r, w')) : w'.tree = w.tree := by
  have htree := (hx w).tree
  rwa [h] at htree

theorem writeOutput_ok {layout : Layout} {title path contents : String} {u : Unit}
    (h : (writeOutput layout title path contents).run.run w = (.ok u, w')) :
    w'.tree = w.tree.write path contents := by
  cases h
  rfl

/-- The registry is written, when there are aliases to register. -/
theorem registerAliases_ok {layout : Layout} {target : String} {aliases : List String} {u : Unit}
    (h : (registerAliases layout target aliases).run.run w = (.ok u, w')) :
    w'.tree = w.tree ∨ ∃ text, w'.tree = w.tree.write layout.registry text := by
  rw [registerAliases] at h
  split at h
  · cases h
    exact .inl rfl
  · obtain ⟨_, w₁, hemit, h⟩ := run_bind_ok.1 h
    cases hemit
    obtain ⟨tree, w₂, hfiles, h⟩ := run_bind_ok.1 h
    cases hfiles
    split at h
    · cases h
    · obtain ⟨registry, w₃, hregister, h⟩ := run_bind_ok.1 h
      have htree := (isQuiet_registerAll _ _ _).tree_eq hregister
      cases h
      exact .inr ⟨registry.text, congrArg (·.write layout.registry registry.text) htree⟩

end Conversion

open Conversion

namespace Project

def Output.definitionOf (out : Output) (name time : String) : Definition :=
  .generate name time { out.definition with review := out.review }

/-- The three files made for a name, in the order they are written. -/
def Output.writeTo (out : Output) (l : Layout) (name time : String) (t : FileTree) : FileTree :=
  ((t.write (l.template name) out.template).write (l.definition name)
    (out.definitionOf name time).text).write (l.reviewDocument name)
    (Report.document name out.review)

/-- What is written in the end: three files, and the registry when there are aliases. -/
theorem finish_ok {p : Project} {time name : String} {aliases : List String}
    {nested : List NestedOutcome} {out : Output} {s : Summary} {w w' : Workspace}
    (h : (p.finish time name aliases nested out).run.run w = (.ok s, w')) :
    s = ⟨name, out.definition.sourceFile, p.layout.template name, p.layout.definition name,
      p.layout.reviewDocument name, out.review.length, Report.automation out.review.length, aliases,
      nested⟩ ∧
    (w'.tree = out.writeTo p.layout name time w.tree ∨
      ∃ text, w'.tree = (out.writeTo p.layout name time w.tree).write p.layout.registry text) := by
  obtain ⟨_, w₁, htemplate, h⟩ := run_bind_ok.1 h
  obtain ⟨_, w₂, hemit, h⟩ := run_bind_ok.1 h
  obtain ⟨_, w₃, hdefinition, h⟩ := run_bind_ok.1 h
  obtain ⟨_, w₄, hreview, h⟩ := run_bind_ok.1 h
  obtain ⟨_, w₅, hregister, h⟩ := run_bind_ok.1 h
  have hwritten : w₄.tree = out.writeTo p.layout name time w.tree := by
    rw [writeOutput_ok hreview, writeOutput_ok hdefinition]
    cases hemit
    cases htemplate
    rfl
  have hregistry := registerAliases_ok hregister
  rw [hwritten] at hregistry
  cases h
  exact ⟨rfl, hregistry⟩

/-- The first part of a run: all that is known before the template is made. -/
def gather (p : Project) (convert : Converter) (chain : List String) (name : String)
    (f : SourceFiles) (options : ConvertOptions) : Conversion (Parts × List NestedOutcome) := do
  emit [.start f.component name options.aliases]
  let (text, source) ← readSource p name f
  let (attributes, applied) ← customize p f.component source.attributes
  let root ← ofExcept (rootElement name source)
  let nested := NestedComponent.detect (← files) source.imports source.renderBody f.template
  let (outcomes, failures) ← convertNested p convert chain options.convertNested nested
  pure ({ text, source, attributes, applied, root, nested, failures }, outcomes)

/-- A conversion gathers what it needs, reports on it, and then writes. -/
theorem run_eq (p : Project) (time : String) (convert : Converter) (chain : List String)
    (name : String) (f : SourceFiles) (options : ConvertOptions) :
    p.run time convert chain name f options = (do
      let (x, outcomes) ← p.gather convert chain name f options
      emit (x.events p.library)
      p.finish time name (appendNew options.aliases x.applied.aliases) outcomes
        (x.output p.library name (p.layout.relative f.template))) := by
  simp only [run, gather, bind_assoc, pure_bind]

/-- The course of a conversion that succeeds: what became known of the component, what came of the
components in it, and the workspace after each part. -/
structure Course (p : Project) (time : String) (convert : Converter) (chain : List String)
    (name : String) (f : SourceFiles) (options : ConvertOptions) (w w' : Workspace)
    (s : Summary) where
  parts : Parts
  outcomes : List NestedOutcome
  gathered : Workspace
  reported : Workspace
  gathers : (p.gather convert chain name f options).run.run w = (.ok (parts, outcomes), gathered)
  reports : (emit (parts.events p.library)).run.run gathered = (.ok (), reported)
  finishes : (p.finish time name (appendNew options.aliases parts.applied.aliases) outcomes
    (parts.output p.library name (p.layout.relative f.template))).run.run reported = (.ok s, w')

variable {p : Project} {time name : String} {convert : Converter} {chain : List String}
  {f : SourceFiles} {options : ConvertOptions} {w w' : Workspace} {s : Summary}

theorem course_of_run (h : (p.run time convert chain name f options).run.run w = (.ok s, w')) :
    Nonempty (Course p time convert chain name f options w w' s) := by
  rw [run_eq] at h
  obtain ⟨⟨parts, outcomes⟩, gathered, hgather, h⟩ := run_bind_ok.1 h
  obtain ⟨_, reported, hreport, hfinish⟩ := run_bind_ok.1 h
  exact ⟨parts, outcomes, gathered, reported, hgather, hreport, hfinish⟩

theorem locate_ok {component : String} (h : (p.locate component).run.run w = (.ok f, w')) :
    w' = w := by
  rw [locate, run_bind, run_files] at h
  dsimp only at h
  split at h
  · cases h
  · cases h
    rfl

/-- A conversion that is called for is a run with nothing else under way. -/
theorem course_of_convert {component : String}
    (h : (p.convert time component options).run.run w = (.ok s, w')) :
    ∃ depth f, depthBound w.tree = depth + 1 ∧ (p.locate component).run.run w = (.ok f, w) ∧
      Nonempty (Course p time (p.convertWithin time depth) [options.outputName.getD f.component]
        (options.outputName.getD f.component) f options w w' s) := by
  obtain ⟨f, w₁, hlocate, h⟩ := run_bind_ok.1 h
  obtain ⟨tree, w₂, hfiles, h⟩ := run_bind_ok.1 h
  cases hfiles
  cases locate_ok hlocate
  cases hdepth : depthBound w.tree with
  | zero =>
    rw [hdepth] at h
    cases h
  | succ depth =>
    rw [hdepth, convertWithin, convertStep] at h
    exact ⟨depth, f, rfl, hlocate, course_of_run h⟩

theorem Course.run (c : Course p time convert chain name f options w w' s) :
    (p.run time convert chain name f options).run.run w = (.ok s, w') := by
  rw [run_eq]
  exact run_bind_ok.2 ⟨_, _, c.gathers, run_bind_ok.2 ⟨_, _, c.reports, c.finishes⟩⟩

/-- With nothing under way, the conversion that is called for takes the course of the component. -/
theorem convert_of_course {component : String} {depth : Nat}
    (hlocate : (p.locate component).run.run w = (.ok f, w)) (hdepth : depthBound w.tree = depth + 1)
    (c : Course p time (p.convertWithin time depth) [options.outputName.getD f.component]
      (options.outputName.getD f.component) f options w w' s) :
    (p.convert time component options).run.run w = (.ok s, w') := by
  refine run_bind_ok.2 ⟨f, w, hlocate, run_bind_ok.2 ⟨w.tree, w, rfl, ?_⟩⟩
  rw [hdepth, convertWithin, convertStep]
  exact c.run

/-! ### Nested components that fail -/

def failureItem? : NestedComponent × NestedOutcome → Option ReviewItem
  | (n, .failed _ message) => some (failureReview n message)
  | _ => none

theorem convertOne_ok {n : NestedComponent} {outcome : NestedOutcome} {items : List ReviewItem}
    (h : (p.convertOne convert chain n).run.run w = (.ok (outcome, items), w')) :
    items = (failureItem? (n, outcome)).toList := by
  obtain ⟨found, w₁, -, h⟩ := run_bind_ok.1 h
  split at h
  · cases h
    rfl
  · rename_i hfound
    cases h
    cases outcome with
    | failed name message => exact absurd rfl (hfound name message)
    | _ => rfl

theorem outcomes_of_not_wanted {nested : List NestedComponent} {outcomes : List NestedOutcome}
    {items : List ReviewItem}
    (h : (p.convertEach convert chain false nested).run.run w = (.ok (outcomes, items), w')) :
    outcomes = [] := by
  induction nested generalizing w with
  | nil =>
    cases h
    rfl
  | cons n rest ih =>
    obtain ⟨_, w₁, -, h⟩ := run_bind_ok.1 h
    exact ih h

/-- The items for review of nested components are those of the calls that failed. -/
theorem convertEach_ok {wanted : Bool} {nested : List NestedComponent}
    {outcomes : List NestedOutcome} {items : List ReviewItem}
    (h : (p.convertEach convert chain wanted nested).run.run w = (.ok (outcomes, items), w')) :
    items = (nested.zip outcomes).filterMap failureItem? := by
  induction nested generalizing w outcomes items with
  | nil =>
    cases h
    rfl
  | cons n rest ih =>
    obtain ⟨_, w₁, -, h⟩ := run_bind_ok.1 h
    cases wanted with
    | false =>
      have hitems := ih h
      rw [outcomes_of_not_wanted h] at hitems ⊢
      simpa using hitems
    | true =>
      obtain ⟨⟨outcome, first⟩, w₂, hone, h⟩ := run_bind_ok.1 h
      obtain ⟨⟨others, more⟩, w₃, heach, h⟩ := run_bind_ok.1 h
      cases h
      rw [convertOne_ok hone, ih heach, List.zip_cons_cons, List.filterMap_cons]
      cases failureItem? (n, outcome) <;> rfl

/-- Every nested component that fails leaves one item, and nothing else does. -/
theorem convertNested_ok {wanted : Bool} {nested : List NestedComponent}
    {outcomes : List NestedOutcome} {items : List ReviewItem}
    (h : (p.convertNested convert chain wanted nested).run.run w = (.ok (outcomes, items), w')) :
    items = (nested.zip outcomes).filterMap failureItem? := by
  rw [convertNested] at h
  split at h
  · obtain ⟨_, w₁, -, h⟩ := run_bind_ok.1 h
    exact convertEach_ok h
  · exact convertEach_ok h

/-- The component is found in its code, and the items on nested components are those of the ones
that failed. -/
theorem gather_ok {x : Parts} {outcomes : List NestedOutcome}
    (h : (p.gather convert chain name f options).run.run w = (.ok (x, outcomes), w')) :
    rootElement name x.source = .ok x.root ∧
      x.failures = (x.nested.zip outcomes).filterMap failureItem? := by
  obtain ⟨_, w₁, -, h₁⟩ := run_bind_ok.1 h
  obtain ⟨⟨text, source⟩, w₂, -, h₂⟩ := run_bind_ok.1 h₁
  obtain ⟨⟨attributes, applied⟩, w₃, -, h₃⟩ := run_bind_ok.1 h₂
  obtain ⟨root, w₄, hfound, h₄⟩ := run_bind_ok.1 h₃
  obtain ⟨tree, w₅, -, h₅⟩ := run_bind_ok.1 h₄
  obtain ⟨⟨outcomes, failures⟩, w₆, hnested, h₆⟩ := run_bind_ok.1 h₅
  cases h₆
  exact ⟨(ofExcept_ok hfound).1, convertNested_ok hnested⟩

namespace Course

variable (c : Course p time convert chain name f options w w' s)

def plan : RootPlan := c.parts.plan p.library

def input : Jinja.TemplateInput := c.parts.input p.library name (p.layout.relative f.template)

def output : Output := c.parts.output p.library name (p.layout.relative f.template)

def definition : Definition := c.output.definitionOf name time

/-- The files that a conversion leaves behind, and the items that it counts. -/
theorem written :
    s.reviewItems = c.definition.review.length ∧
    (w'.tree = c.output.writeTo p.layout name time c.reported.tree ∨
      ∃ text, w'.tree =
        (c.output.writeTo p.layout name time c.reported.tree).write p.layout.registry text) := by
  obtain ⟨hsummary, htree⟩ := finish_ok c.finishes
  exact ⟨congrArg Summary.reviewItems hsummary, htree⟩

/-- A conversion takes one course only. -/
theorem parts_unique (c' : Course p time convert chain name f options w w' s) : c.parts = c'.parts := by
  have hboth := c.gathers.symm.trans c'.gathers
  cases c
  cases c'
  cases hboth
  rfl

theorem review_definition : c.definition.review =
    c.parts.root.review ++ c.parts.failures ++ c.plan.review ++ c.plan.classes.review ++
      c.parts.content.review ++ (c.input.compile {}).review := by
  cases c
  rfl

theorem review_plan : c.plan.review =
    (RootPlan.resolveRoot p.library c.plan.base c.parts.root.value c.parts.attributes
      c.parts.source.renderLine).review ++
    RootPlan.unmappedReview c.parts.source.renderLine c.plan.resolution c.plan.classes ++
    c.plan.resolution.review := by
  cases c
  rfl

end Course

end Project

end JsxToJinja
