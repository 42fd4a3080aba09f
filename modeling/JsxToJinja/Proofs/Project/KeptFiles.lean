import JsxToJinja.Proofs.Project.Course

/-! No conversion takes a file away, so the templates of the nested components are there once they are
dealt with. -/
namespace JsxToJinja

namespace Conversion

variable {α β : Type} {x : Conversion α} {f : α → Conversion β}

/-- Every file that is there stays there, whatever comes of the step. -/
def Keeps (x : Conversion α) : Prop :=
  ∀ w path, w.tree.has path → (x.run.run w).2.tree.has path

theorem IsQuiet.keeps (h : IsQuiet x) : Keeps x := fun w path hthere => by
  rwa [(h w).tree]

theorem keeps_emit (events : List Event) : Keeps (emit events) := fun _ _ hthere => hthere

theorem keeps_write (path contents : String) : Keeps (write path contents) := fun _ _ hthere =>
  FileTree.has_write path contents hthere

/-- A step and what follows it keep the files that both keep. -/
theorem Keeps.bind (hx : Keeps x) (hf : ∀ a, Keeps (f a)) : Keeps (x >>= f) := by
  intro w path hthere
  have hfirst := hx w path hthere
  rw [run_bind]
  split
  · rename_i a w₁ hrun
    rw [hrun] at hfirst
    exact hf a w₁ path hfirst
  · rename_i hrun
    rwa [hrun] at hfirst

theorem keeps_pure (a : α) : Keeps (pure a : Conversion α) := (isQuiet_pure a).keeps

theorem Keeps.has {w w' : Workspace} {r : Except ConvertError α} {path : String} (hx : Keeps x)
    (h : x.run.run w = (r, w')) (hthere : w.tree.has path) : w'.tree.has path := by
  have hafter := hx w path hthere
  rwa [h] at hafter

theorem keeps_writeOutput (layout : Layout) (title path contents : String) :
    Keeps (writeOutput layout title path contents) :=
  (keeps_emit _).bind fun _ => (keeps_write _ _).bind fun _ => keeps_emit _

theorem keeps_registerAliases (layout : Layout) (target : String) (aliases : List String) :
    Keeps (registerAliases layout target aliases) := by
  rw [registerAliases]
  split
  · exact keeps_pure _
  · refine (keeps_emit _).bind fun _ => isQuiet_files.keeps.bind fun tree => ?_
    split
    · exact (isQuiet_throw _).keeps
    · exact (isQuiet_registerAll _ _ _).keeps.bind fun _ =>
        (keeps_write _ _).bind fun _ => keeps_emit _

theorem keeps_attempt {step : Conversion Summary} (h : Keeps step) (name : String) :
    Keeps (Project.attempt name step) := by
  intro w path hthere
  have hafter := h w path hthere
  rw [Project.run_attempt]
  split <;> rename_i hrun <;> rwa [hrun] at hafter

end Conversion

open Conversion

namespace Project

variable {p : Project} {convert : Converter} {time : String}

theorem keeps_finish (p : Project) (time name : String) (aliases : List String)
    (nested : List NestedOutcome) (out : Output) :
    Keeps (p.finish time name aliases nested out) :=
  (keeps_write _ _).bind fun _ => (keeps_emit _).bind fun _ =>
    (keeps_writeOutput _ _ _ _).bind fun _ => (keeps_writeOutput _ _ _ _).bind fun _ =>
      (keeps_registerAliases _ _ _).bind fun _ => (keeps_emit _).bind fun _ => keeps_pure _

theorem keeps_ensureNested (h : ∀ chain f options, Keeps (convert chain f options))
    (chain : List String) (n : NestedComponent) : Keeps (p.ensureNested convert chain n) := by
  rw [ensureNested]
  split
  · exact keeps_pure _
  · refine isQuiet_files.keeps.bind fun tree => ?_
    split
    · exact keeps_pure _
    · exact keeps_attempt (h _ _ _) _

theorem keeps_convertOne (h : ∀ chain f options, Keeps (convert chain f options))
    (chain : List String) (n : NestedComponent) : Keeps (p.convertOne convert chain n) := by
  refine (keeps_ensureNested h chain n).bind fun outcome => ?_
  split
  · exact (keeps_emit _).bind fun _ => keeps_pure _
  · exact keeps_pure _

theorem keeps_convertEach (h : ∀ chain f options, Keeps (convert chain f options))
    (chain : List String) (wanted : Bool) (nested : List NestedComponent) :
    Keeps (p.convertEach convert chain wanted nested) := by
  induction nested with
  | nil => exact keeps_pure _
  | cons n rest ih =>
    refine (keeps_emit _).bind fun _ => ?_
    split
    · exact (keeps_convertOne h chain n).bind fun _ => ih.bind fun _ => keeps_pure _
    · exact ih

theorem keeps_convertNested (h : ∀ chain f options, Keeps (convert chain f options))
    (chain : List String) (wanted : Bool) (nested : List NestedComponent) :
    Keeps (p.convertNested convert chain wanted nested) := by
  rw [convertNested]
  split
  · exact (keeps_emit _).bind fun _ => keeps_convertEach h chain wanted nested
  · exact keeps_convertEach h chain wanted nested

theorem keeps_gather (h : ∀ chain f options, Keeps (convert chain f options))
    (chain : List String) (name : String) (f : SourceFiles) (options : ConvertOptions) :
    Keeps (p.gather convert chain name f options) :=
  (keeps_emit _).bind fun _ => (isQuiet_readSource p name f).keeps.bind fun _ =>
    (isQuiet_customize p _ _).keeps.bind fun _ => (isQuiet_ofExcept _).keeps.bind fun _ =>
      isQuiet_files.keeps.bind fun _ => (keeps_convertNested h _ _ _).bind fun _ => keeps_pure _

theorem keeps_run (h : ∀ chain f options, Keeps (convert chain f options)) (time : String)
    (chain : List String) (name : String) (f : SourceFiles) (options : ConvertOptions) :
    Keeps (p.run time convert chain name f options) := by
  rw [run_eq]
  exact (keeps_gather h chain name f options).bind fun _ => (keeps_emit _).bind fun _ =>
    keeps_finish p time name _ _ _

/-- Conversions of any depth keep what is there. -/
theorem keeps_convertWithin (p : Project) (time : String) (depth : Nat) (chain : List String)
    (f : SourceFiles) (options : ConvertOptions) :
    Keeps (p.convertWithin time depth chain f options) := by
  induction depth generalizing chain f options with
  | zero => exact (isQuiet_throw _).keeps
  | succ depth ih =>
    rw [convertWithin, convertStep]
    split
    · exact (isQuiet_throw _).keeps
    · exact keeps_run ih time _ _ f options

/-! ### Templates of nested components -/

variable {w w' : Workspace} {s : Summary} {f : SourceFiles} {options : ConvertOptions}
  {chain : List String}

/-- A conversion that succeeds leaves the template under the name it was called for. -/
theorem has_template_of_convertWithin {depth : Nat}
    (h : (p.convertWithin time depth chain f options).run.run w = (.ok s, w')) :
    w'.tree.has (p.layout.template (options.outputName.getD f.component)) := by
  cases depth with
  | zero => cases h
  | succ depth =>
    rw [convertWithin, convertStep] at h
    split at h
    · cases h
    · obtain ⟨c⟩ := course_of_run h
      have hthere : (c.output.writeTo p.layout (options.outputName.getD f.component) time
          c.reported.tree).has (p.layout.template (options.outputName.getD f.component)) := by
        refine FileTree.has_write _ _ (FileTree.has_write _ _ ?_)
        rw [FileTree.has, FileTree.read?_write_self]
        rfl
      rcases c.written.2 with htree | ⟨text, htree⟩ <;> rw [htree]
      · exact hthere
      · exact FileTree.has_write _ _ hthere

/-- The nested component is there, converted just now or before. -/
def NestedOutcome.isThere : NestedOutcome → Bool
  | .converted _ | .existing _ => true
  | .failed _ _ => false

/-- A nested component that is there afterwards has its template. -/
theorem has_template_of_ensureNested {depth : Nat} {n : NestedComponent} {outcome : NestedOutcome}
    (h : (p.ensureNested (p.convertWithin time depth) chain n).run.run w = (.ok outcome, w'))
    (hthere : NestedOutcome.isThere outcome = true) : w'.tree.has (p.layout.template n.name) := by
  rw [ensureNested] at h
  split at h
  · cases h
    cases hthere
  · rw [run_bind, run_files] at h
    dsimp only at h
    split at h
    · cases h
      assumption
    · rw [run_attempt] at h
      split at h
      · rename_i hrun
        cases h
        have hmade := has_template_of_convertWithin hrun
        rwa [Option.getD_some] at hmade
      · cases h
        cases hthere

theorem outcome_of_convertOne {n : NestedComponent} {outcome : NestedOutcome}
    {items : List ReviewItem}
    (h : (p.convertOne convert chain n).run.run w = (.ok (outcome, items), w')) :
    ∃ w₁, (p.ensureNested convert chain n).run.run w = (.ok outcome, w₁) ∧ w'.tree = w₁.tree := by
  obtain ⟨found, w₁, hensure, h⟩ := run_bind_ok.1 h
  split at h <;> cases h <;> exact ⟨_, hensure, rfl⟩

/-- Of all nested components those that are there have their templates. -/
theorem has_template_of_convertEach {depth : Nat} {wanted : Bool} {nested : List NestedComponent}
    {outcomes : List NestedOutcome} {items : List ReviewItem}
    (h : (p.convertEach (p.convertWithin time depth) chain wanted nested).run.run w =
      (.ok (outcomes, items), w')) {n : NestedComponent} {outcome : NestedOutcome}
    (hn : (n, outcome) ∈ nested.zip outcomes) (hthere : NestedOutcome.isThere outcome = true) :
    w'.tree.has (p.layout.template n.name) := by
  induction nested generalizing w outcomes items with
  | nil => cases hn
  | cons m rest ih =>
    obtain ⟨_, w₁, -, hrest⟩ := run_bind_ok.1 h
    cases wanted with
    | false =>
      rw [outcomes_of_not_wanted h] at hn
      cases hn
    | true =>
      obtain ⟨⟨first, more⟩, w₂, hone, hrest⟩ := run_bind_ok.1 hrest
      obtain ⟨⟨others, _⟩, w₃, heach, hrest⟩ := run_bind_ok.1 hrest
      cases hrest
      rcases List.mem_cons.1 hn with heq | hn
      · -- Made for the first one, the template stays while the others are dealt with.
        obtain ⟨rfl, rfl⟩ := Prod.mk.inj heq
        obtain ⟨w₄, hensure, htree⟩ := outcome_of_convertOne hone
        have hmade := has_template_of_ensureNested hensure hthere
        rw [← htree] at hmade
        exact (keeps_convertEach (keeps_convertWithin p time depth) chain true rest).has heach hmade
      · exact ih heach hn

/-- What is detected, and that its templates are there unless the conversion of one failed. -/
theorem nested_of_gather {depth : Nat} {name : String} {x : Parts} {outcomes : List NestedOutcome}
    (h : (p.gather (p.convertWithin time depth) chain name f options).run.run w =
      (.ok (x, outcomes), w')) :
    (∃ tree, x.nested = NestedComponent.detect tree x.source.imports x.source.renderBody f.template) ∧
    ∀ n outcome, (n, outcome) ∈ x.nested.zip outcomes → NestedOutcome.isThere outcome = true →
      w'.tree.has (p.layout.template n.name) := by
  obtain ⟨_, w₁, -, h₁⟩ := run_bind_ok.1 h
  obtain ⟨⟨text, source⟩, w₂, -, h₂⟩ := run_bind_ok.1 h₁
  obtain ⟨⟨attributes, applied⟩, w₃, -, h₃⟩ := run_bind_ok.1 h₂
  obtain ⟨root, w₄, -, h₄⟩ := run_bind_ok.1 h₃
  obtain ⟨tree, w₅, -, h₅⟩ := run_bind_ok.1 h₄
  obtain ⟨⟨outcomes, failures⟩, w₆, hnested, h₆⟩ := run_bind_ok.1 h₅
  cases h₆
  refine ⟨⟨tree, rfl⟩, fun n outcome hn hthere => ?_⟩
  rw [convertNested] at hnested
  split at hnested
  · obtain ⟨_, w₇, -, hnested⟩ := run_bind_ok.1 hnested
    exact has_template_of_convertEach hnested hn hthere
  · exact has_template_of_convertEach hnested hn hthere

end Project

end JsxToJinja
