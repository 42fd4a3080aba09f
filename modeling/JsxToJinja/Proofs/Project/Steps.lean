import JsxToJinja.Project.Convert

/-! Steps of a conversion that change no file and start no other conversion. -/
namespace JsxToJinja

def Event.started (events : List Event) : List String :=
  events.filterMap fun
    | .start _ output _ => some output
    | _ => none

@[simp] theorem Event.started_append (l l' : List Event) :
    started (l ++ l') = started l ++ started l' := List.filterMap_append

namespace Conversion

variable {α β : Type} {x : Conversion α} {f : α → Conversion β}

/-- From one state to another these conversions start, in this order. -/
def Starts (names : List String) (w w' : Workspace) : Prop :=
  ∃ events, w'.trace = w.trace ++ events ∧ Event.started events = names

theorem Starts.trans {names names' : List String} {w₁ w₂ w₃ : Workspace} (h : Starts names w₁ w₂)
    (h' : Starts names' w₂ w₃) : Starts (names ++ names') w₁ w₃ := by
  obtain ⟨events, htrace, rfl⟩ := h
  obtain ⟨events', htrace', rfl⟩ := h'
  exact ⟨events ++ events', by rw [htrace', htrace, List.append_assoc], Event.started_append _ _⟩

/-- Between two states of the workspace no file is written and no conversion starts. -/
structure Quiet (w w' : Workspace) : Prop where
  tree : w'.tree = w.tree
  trace : ∃ events, w'.trace = w.trace ++ events ∧ Event.started events = []

theorem Quiet.starts {w w' : Workspace} (h : Quiet w w') : Starts [] w w' := h.trace

theorem Quiet.refl (w : Workspace) : Quiet w w := ⟨rfl, [], (List.append_nil _).symm, rfl⟩

theorem Quiet.trans {w₁ w₂ w₃ : Workspace} (h : Quiet w₁ w₂) (h' : Quiet w₂ w₃) : Quiet w₁ w₃ := by
  obtain ⟨events, htrace, hstarted⟩ := h.trace
  obtain ⟨events', htrace', hstarted'⟩ := h'.trace
  refine ⟨h'.tree.trans h.tree, events ++ events', ?_, ?_⟩
  · rw [htrace', htrace, List.append_assoc]
  · rw [Event.started_append, hstarted, hstarted', List.append_nil]

/-- Whatever comes of the step, it is quiet. -/
def IsQuiet (x : Conversion α) : Prop := ∀ w, Quiet w (x.run.run w).2

/-- The second step is taken when the first one comes to something. -/
theorem run_bind (x : Conversion α) (f : α → Conversion β) (w : Workspace) :
    (x >>= f).run.run w = match x.run.run w with
      | (.ok a, w') => (f a).run.run w'
      | (.error e, w') => (.error e, w') := by
  rw [ExceptT.run_bind, StateT.run_bind]
  rcases x.run.run w with ⟨e | a, w'⟩ <;> rfl

theorem isQuiet_pure (a : α) : IsQuiet (pure a) := fun w => .refl w

/-- Two quiet steps one after the other are quiet. -/
theorem IsQuiet.bind (hx : IsQuiet x) (hf : ∀ a, IsQuiet (f a)) : IsQuiet (x >>= f) := by
  intro w
  have hw := hx w
  rw [run_bind]
  split
  · rename_i hrun
    rw [hrun] at hw
    exact hw.trans (hf _ _)
  · rename_i hrun
    rwa [hrun] at hw

theorem isQuiet_emit {events : List Event} (h : Event.started events = []) :
    IsQuiet (emit events) := fun _ => ⟨rfl, events, rfl, h⟩

theorem run_files (w : Workspace) : files.run.run w = (.ok w.tree, w) := rfl

theorem isQuiet_files : IsQuiet files := fun w => .refl w

theorem isQuiet_throw (e : ConvertError) : IsQuiet (throw e : Conversion α) := fun w => .refl w

theorem isQuiet_ofExcept (r : Except ConvertError α) : IsQuiet (ofExcept r : Conversion α) := by
  cases r with
  | ok a => exact isQuiet_pure a
  | error e => exact isQuiet_throw e

theorem isQuiet_read (path : String) : IsQuiet (read path) := by
  refine isQuiet_files.bind fun tree => ?_
  split
  · exact isQuiet_pure _
  · exact isQuiet_throw _

theorem isQuiet_tokens (dir : String) : IsQuiet (tokens dir) := by
  have hget : IsQuiet (get : Conversion Workspace) := fun w => .refl w
  refine hget.bind fun w => ?_
  split
  · exact isQuiet_pure _
  · refine (isQuiet_ofExcept _).bind fun table => ?_
    have hremember : IsQuiet
        (modify fun w => { w with tokens := some table } : Conversion Unit) := fun w =>
      ⟨rfl, [], (List.append_nil _).symm, rfl⟩
    exact hremember.bind fun _ => isQuiet_pure _

theorem isQuiet_tokenValues (dir reference : String) : IsQuiet (tokenValues dir reference) :=
  (isQuiet_tokens dir).bind fun _ => isQuiet_ofExcept _

theorem isQuiet_registerAll (target : String) (aliases : List String) (registry : Registry) :
    IsQuiet (registerAll target aliases registry) := by
  induction aliases generalizing registry with
  | nil => exact isQuiet_pure _
  | cons name rest ih =>
    rw [registerAll]
    split
    · exact (isQuiet_emit rfl).bind fun _ => ih _
    · exact ih _

end Conversion

open Conversion

namespace Customization

variable {lookup : String → Conversion (List String)}

theorem isQuiet_valuesOf (h : ∀ r, IsQuiet (lookup r)) (source : ValueSource) :
    IsQuiet (valuesOf lookup source) := by
  cases source with
  | token reference => exact h reference
  | items values => exact isQuiet_pure _

theorem isQuiet_override (h : ∀ r, IsQuiet (lookup r)) (o : AttributeOverride) (a : Attribute) :
    IsQuiet (override lookup o a) := by
  rw [override]
  split
  · exact (isQuiet_valuesOf h _).bind fun _ => (isQuiet_pure _).bind fun _ => isQuiet_pure _
  · exact (isQuiet_pure a).bind fun _ => isQuiet_pure _

theorem isQuiet_overrideAll (h : ∀ r, IsQuiet (lookup r)) (overrides : Dict AttributeOverride)
    (attributes : List Attribute) : IsQuiet (overrideAll lookup overrides attributes) := by
  induction attributes with
  | nil => exact isQuiet_pure _
  | cons a rest ih =>
    rw [overrideAll]
    split
    · exact (isQuiet_override h _ a).bind fun _ => ih.bind fun _ => isQuiet_pure _
    · exact (isQuiet_pure a).bind fun _ => ih.bind fun _ => isQuiet_pure _

theorem isQuiet_addition (h : ∀ r, IsQuiet (lookup r)) (name : String) (spec : AttributeAddition) :
    IsQuiet (addition lookup name spec) := by
  rw [addition]
  split
  · exact (isQuiet_valuesOf h _).bind fun _ => isQuiet_pure _
  · exact (isQuiet_pure []).bind fun _ => isQuiet_pure _

theorem isQuiet_addAll (h : ∀ r, IsQuiet (lookup r)) (additions : Dict AttributeAddition)
    (attributes : List Attribute) : IsQuiet (addAll lookup additions attributes) := by
  induction additions generalizing attributes with
  | nil => exact isQuiet_pure _
  | cons entry rest ih =>
    rw [addAll]
    split
    · exact ih _
    · exact (isQuiet_addition h _ _).bind fun _ => ih _

theorem isQuiet_apply (h : ∀ r, IsQuiet (lookup r)) (c : Customization)
    (attributes : List Attribute) : IsQuiet (c.apply lookup attributes) :=
  (isQuiet_overrideAll h _ _).bind fun _ => (isQuiet_addAll h _ _).bind fun _ => isQuiet_pure _

end Customization

namespace Project

theorem isQuiet_locate (p : Project) (component : String) : IsQuiet (p.locate component) := by
  refine isQuiet_files.bind fun tree => ?_
  dsimp only
  by_cases h : tree.has (Path.join (Path.join p.layout.components component) p.config.templateFile)
  · rw [h]
    exact isQuiet_pure _
  · rw [Bool.not_eq_true _ |>.mp h]
    exact (isQuiet_throw _).bind fun _ => isQuiet_pure _

theorem isQuiet_readSource (p : Project) (name : String) (f : SourceFiles) :
    IsQuiet (p.readSource name f) := by
  refine (isQuiet_emit ?_).bind fun _ => (isQuiet_read _).bind fun text => ?_
  · cases f.defaults <;> rfl
  extract_lets parse
  have hparse : ∀ defaults, IsQuiet (parse defaults) := by
    intro defaults
    refine (isQuiet_ofExcept _).bind fun source => ?_
    split
    · exact (isQuiet_throw _).bind fun _ => (isQuiet_emit rfl).bind fun _ => isQuiet_pure _
    · exact (isQuiet_emit rfl).bind fun _ => isQuiet_pure _
  split
  · exact (isQuiet_read _).bind fun _ => (isQuiet_pure _).bind hparse
  · exact (isQuiet_pure _).bind hparse

theorem isQuiet_customize (p : Project) (component : String) (attributes : List Attribute) :
    IsQuiet (p.customize component attributes) := by
  refine isQuiet_files.bind fun tree => (isQuiet_ofExcept _).bind fun found => ?_
  split
  · exact isQuiet_pure _
  · refine (isQuiet_emit rfl).bind fun _ => IsQuiet.bind ?_ fun result => ?_
    · exact Customization.isQuiet_apply (isQuiet_tokenValues _) _ _
    · refine (isQuiet_emit ?_).bind fun _ => isQuiet_pure _
      simp [Event.started]

theorem started_events (plan : RootPlan) : Event.started plan.events = [] := by
  rw [RootPlan.events, Event.started_append]
  cases plan.base <;> cases plan.forwardedRules <;> rfl

/-- An attempt turns every failure into an outcome. -/
theorem run_attempt (name : String) (step : Conversion Summary) (w : Workspace) :
    (attempt name step).run.run w = match step.run.run w with
      | (.ok _, w') => (.ok (.converted name), w')
      | (.error e, w') => (.ok (.failed name e.message), w') := by
  rw [attempt, ExceptT.run_tryCatch, StateT.run_bind, run_bind]
  rcases step.run.run w with ⟨e | a, w'⟩ <;> rfl

/-- A project without a configuration file. -/
def standardProject : Project := ⟨{}, ({} : Config).layout "/p", {}⟩

end Project

end JsxToJinja
