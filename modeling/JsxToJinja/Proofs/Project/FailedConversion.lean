import JsxToJinja.Proofs.Project.Steps

/-! Conversions that fail. Everything that can stop a component comes before its first file is written,
but for an alias registry that cannot be read; nested components are written earlier, but their
failures stop nothing. -/
namespace JsxToJinja

namespace Conversion

variable {α β : Type} {x : Conversion α} {f : α → Conversion β}
  {P : ConvertError → Workspace → Prop}

/-- Whatever comes of the step, the files stay as they are. -/
def KeepsFiles (x : Conversion α) : Prop := ∀ w, (x.run.run w).2.tree = w.tree

/-- Every failure of the step, and the workspace it leaves behind, is as `P` says. -/
def FailsAs (P : ConvertError → Workspace → Prop) (x : Conversion α) : Prop :=
  ∀ w e w', x.run.run w = (.error e, w') → P e w'

/-- A step that fails leaves the files as they were, unless the failure is as `P` says. -/
def FailsCleanly (P : ConvertError → Workspace → Prop) (x : Conversion α) : Prop :=
  ∀ w e w', x.run.run w = (.error e, w') → w'.tree = w.tree ∨ P e w'

theorem IsQuiet.keepsFiles (hx : IsQuiet x) : KeepsFiles x := fun w => (hx w).tree

theorem keepsFiles_emit (events : List Event) : KeepsFiles (emit events) := fun _ => rfl

theorem failsAs_pure (a : α) : FailsAs P (pure a) := by
  intro w e w' h
  cases h

/-- A step and what follows it fail as one of them does. -/
theorem FailsAs.bind (hx : FailsAs P x) (hf : ∀ a, FailsAs P (f a)) : FailsAs P (x >>= f) := by
  intro w e w' h
  rw [run_bind] at h
  split at h
  · exact hf _ _ _ _ h
  · rename_i hfail
    cases h
    exact hx _ _ _ hfail

/-- Steps that keep the files may come before a step that fails cleanly. -/
theorem KeepsFiles.bind_failsCleanly (hx : KeepsFiles x) (hf : ∀ a, FailsCleanly P (f a)) :
    FailsCleanly P (x >>= f) := by
  intro w e w' h
  have hw := hx w
  rw [run_bind] at h
  split at h
  · rename_i hrun
    rw [hrun] at hw
    rcases hf _ _ _ _ h with hkept | hp
    · exact .inl (hkept.trans hw)
    · exact .inr hp
  · rename_i hrun
    cases h
    rw [hrun] at hw
    exact .inl hw

theorem KeepsFiles.failsCleanly (hx : KeepsFiles x) : FailsCleanly P x := by
  intro w e w' h
  have hw := hx w
  rw [h] at hw
  exact .inl hw

theorem FailsAs.failsCleanly (hx : FailsAs P x) : FailsCleanly P x := fun w e w' h =>
  .inr (hx w e w' h)

/-! ### Steps -/

theorem failsAs_emit (events : List Event) : FailsAs P (emit events) := by
  intro w e w' h
  cases h

theorem failsAs_files : FailsAs P files := by
  intro w e w' h
  cases h

theorem failsAs_write (path contents : String) : FailsAs P (write path contents) := by
  intro w e w' h
  cases h

theorem failsAs_writeOutput (layout : Layout) (title path contents : String) :
    FailsAs P (writeOutput layout title path contents) :=
  (failsAs_emit _).bind fun _ => (failsAs_write _ _).bind fun _ => failsAs_emit _

theorem failsAs_registerAll (target : String) (aliases : List String) (registry : Registry) :
    FailsAs P (registerAll target aliases registry) := by
  induction aliases generalizing registry with
  | nil => exact failsAs_pure _
  | cons name rest ih =>
    rw [registerAll]
    split
    · exact (failsAs_emit _).bind fun _ => ih _
    · exact ih _

end Conversion

open Conversion

/-- The failure of an alias registry whose text is none. -/
structure BrokenRegistry (p : Project) (e : ConvertError) (w : Workspace) : Prop where
  error : e = .json
  unreadable : Registry.load? p.layout.registry w.tree = none

namespace Project

/-! ### What comes after the first file -/

variable {P : ConvertError → Workspace → Prop}

theorem failsAs_attempt (name : String) (step : Conversion Summary) :
    FailsAs P (attempt name step) := by
  intro w e w' h
  rw [run_attempt] at h
  split at h <;> cases h

theorem failsAs_ensureNested (p : Project) (convert : Converter) (chain : List String)
    (n : NestedComponent) : FailsAs P (p.ensureNested convert chain n) := by
  rw [ensureNested]
  split
  · exact failsAs_pure _
  · refine failsAs_files.bind fun tree => ?_
    split
    · exact failsAs_pure _
    · exact failsAs_attempt _ _

theorem failsAs_convertOne (p : Project) (convert : Converter) (chain : List String)
    (n : NestedComponent) : FailsAs P (p.convertOne convert chain n) := by
  refine (failsAs_ensureNested p convert chain n).bind fun outcome => ?_
  split
  · exact (failsAs_emit _).bind fun _ => failsAs_pure _
  · exact failsAs_pure _

theorem failsAs_convertEach (p : Project) (convert : Converter) (chain : List String)
    (wanted : Bool) (nested : List NestedComponent) :
    FailsAs P (p.convertEach convert chain wanted nested) := by
  induction nested with
  | nil => exact failsAs_pure _
  | cons n rest ih =>
    refine (failsAs_emit _).bind fun _ => ?_
    split
    · exact (failsAs_convertOne p convert chain n).bind fun _ => ih.bind fun _ => failsAs_pure _
    · exact ih

/-- Nested components stop nothing. -/
theorem failsAs_convertNested (p : Project) (convert : Converter) (chain : List String)
    (wanted : Bool) (nested : List NestedComponent) :
    FailsAs P (p.convertNested convert chain wanted nested) := by
  rw [convertNested]
  split
  · exact (failsAs_emit _).bind fun _ => failsAs_convertEach p convert chain wanted nested
  · exact failsAs_convertEach p convert chain wanted nested

/-- Aliases cannot be registered in what is no registry, and nothing else stops them. -/
theorem failsAs_registerAliases (p : Project) (target : String) (aliases : List String) :
    FailsAs (BrokenRegistry p) (registerAliases p.layout target aliases) := by
  rw [registerAliases]
  split
  · exact failsAs_pure _
  · refine (failsAs_emit _).bind fun _ => ?_
    intro w e w' h
    rw [run_bind, run_files] at h
    dsimp only at h
    split at h
    · rename_i hload
      cases h
      exact ⟨rfl, hload⟩
    · refine FailsAs.bind ?_ (fun registry => ?_) w e w' h
      · exact failsAs_registerAll _ _ _
      · exact (failsAs_write _ _).bind fun _ => failsAs_emit _

/-- Once the template is made, only the registry of aliases can fail. -/
theorem failsAs_finish (p : Project) (time name : String) (aliases : List String)
    (nested : List NestedOutcome) (out : Output) :
    FailsAs (BrokenRegistry p) (p.finish time name aliases nested out) :=
  (failsAs_write _ _).bind fun _ => (failsAs_emit _).bind fun _ =>
    (failsAs_writeOutput _ _ _ _).bind fun _ => (failsAs_writeOutput _ _ _ _).bind fun _ =>
    (failsAs_registerAliases p name aliases).bind fun _ => (failsAs_emit _).bind fun _ =>
    failsAs_pure _

/-! ### Whole conversions -/

theorem failsCleanly_run (p : Project) (time : String) (convert : Converter) (chain : List String)
    (name : String) (f : SourceFiles) (options : ConvertOptions) :
    FailsCleanly (BrokenRegistry p) (p.run time convert chain name f options) := by
  refine (keepsFiles_emit _).bind_failsCleanly fun _ => ?_
  refine (isQuiet_readSource p name f).keepsFiles.bind_failsCleanly fun read => ?_
  refine (isQuiet_customize p _ _).keepsFiles.bind_failsCleanly fun customized => ?_
  refine (isQuiet_ofExcept _).keepsFiles.bind_failsCleanly fun root => ?_
  refine isQuiet_files.keepsFiles.bind_failsCleanly fun tree => ?_
  -- From here on files are written, and only the registry is left to fail.
  refine FailsAs.failsCleanly ?_
  exact (failsAs_convertNested p convert chain _ _).bind fun _ => (failsAs_emit _).bind fun _ =>
    failsAs_finish p time name _ _ _

theorem failsCleanly_convertWithin (p : Project) (time : String) (depth : Nat)
    (chain : List String) (f : SourceFiles) (options : ConvertOptions) :
    FailsCleanly (BrokenRegistry p) (p.convertWithin time depth chain f options) := by
  cases depth with
  | zero => exact (isQuiet_throw _).keepsFiles.failsCleanly
  | succ depth =>
    rw [convertWithin, convertStep]
    split
    · exact (isQuiet_throw _).keepsFiles.failsCleanly
    · exact failsCleanly_run p time _ _ _ f options

theorem failsCleanly_convert (p : Project) (time component : String) (options : ConvertOptions) :
    FailsCleanly (BrokenRegistry p) (p.convert time component options) :=
  (isQuiet_locate p component).keepsFiles.bind_failsCleanly fun _ =>
    isQuiet_files.keepsFiles.bind_failsCleanly fun _ => failsCleanly_convertWithin p time _ _ _ options

/-- A customized component that fails leaves the files as they were, but for a broken registry. -/
theorem failsCleanly_convertCustom (p : Project) (time path : String) (options : ConvertOptions) :
    FailsCleanly (BrokenRegistry p) (p.convertCustom time path options) := by
  refine isQuiet_files.keepsFiles.bind_failsCleanly fun tree => ?_
  extract_lets sourceFile start
  have hstart : ∀ u, FailsCleanly (BrokenRegistry p) (start u) := by
    intro u
    refine (isQuiet_read path).keepsFiles.bind_failsCleanly fun text => ?_
    refine (isQuiet_ofExcept _).keepsFiles.bind_failsCleanly fun custom => ?_
    extract_lets aliases make
    have hmake : ∀ name, FailsCleanly (BrokenRegistry p) (make name) := fun name =>
      (keepsFiles_emit _).bind_failsCleanly fun _ =>
        (failsAs_finish p time name _ _ _).failsCleanly
    split
    · exact (isQuiet_pure _).keepsFiles.bind_failsCleanly hmake
    · exact (isQuiet_throw _).keepsFiles.bind_failsCleanly hmake
  split
  · exact (isQuiet_throw _).keepsFiles.bind_failsCleanly hstart
  · exact hstart ()

/-- A conversion that fails has changed no file, unless what fails is the registry of aliases. This
holds in every state of the workspace, and for components that are described by a file as well. -/
theorem failed_conversion_keeps_files (p : Project) (time : String) (options : ConvertOptions)
    (w w' : Workspace) (e : ConvertError) (he : ¬BrokenRegistry p e w') :
    (∀ component, (p.convert time component options).run.run w = (.error e, w') →
      w'.tree = w.tree) ∧
    (∀ path, (p.convertCustom time path options).run.run w = (.error e, w') →
      w'.tree = w.tree) := by
  refine ⟨fun component h => ?_, fun path h => ?_⟩
  · exact (failsCleanly_convert p time component options w e w' h).resolve_right he
  · exact (failsCleanly_convertCustom p time path options w e w' h).resolve_right he

def unfinishedCard : Workspace :=
  { tree := { files := [("/p/card.json", "\x7b"), ("/p/conversion/customizations/card.json", "\x7b"),
      ("/p/rvo/components/card/src/template.tsx", "export const Card = () => <div />;")] } }

def failure? {α : Type} : Except ConvertError α × Workspace → Option ConvertError
  | (.error e, _) => some e
  | (.ok _, _) => none

theorem eq_of_failure? {α : Type} {r : Except ConvertError α × Workspace} {e : ConvertError}
    (h : failure? r = some e) : r = (.error e, r.2) := by
  obtain ⟨result, w⟩ := r
  cases result with
  | ok a => cases h
  | error e' =>
    cases h
    rfl

theorem unfinished_card_keeps_files :
    (∃ e w', (standardProject.convert "" "card" {}).run.run unfinishedCard = (.error e, w') ∧
      w'.tree = unfinishedCard.tree) ∧
    (∃ e w', (standardProject.convertCustom "" "/p/card.json" {}).run.run unfinishedCard =
      (.error e, w') ∧ w'.tree = unfinishedCard.tree) := by
  have hcard := eq_of_failure? (e := .customization "/p/conversion/customizations/card.json" none)
    (r := (standardProject.convert "" "card" {}).run.run unfinishedCard) (by decide +kernel)
  have hcustom := eq_of_failure? (e := .customization "/p/card.json" none)
    (r := (standardProject.convertCustom "" "/p/card.json" {}).run.run unfinishedCard)
    (by decide)
  refine ⟨⟨_, _, hcard, ?_⟩, ⟨_, _, hcustom, ?_⟩⟩
  · exact (failed_conversion_keeps_files standardProject "" {} _ _ _
      (fun h => by cases h.error)).1 "card" hcard
  · exact (failed_conversion_keeps_files standardProject "" {} _ _ _
      (fun h => by cases h.error)).2 "/p/card.json" hcustom

end Project

end JsxToJinja
