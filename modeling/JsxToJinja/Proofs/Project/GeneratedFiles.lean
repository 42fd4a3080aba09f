import JsxToJinja.Proofs.Project.BareComponents
import JsxToJinja.Proofs.Project.Places

/-! Components that are made already. A conversion leaves what is there of other components alone, and
writes a template that is not there once at most, as long as every name is one piece of a path. -/
namespace JsxToJinja

/-- What is made for one name alone. -/
def Place.outputs (name : String) : List Place := [.template name, .definition name, .review name]

namespace FileTree

variable {l : Layout} {chain : List String} {busy : Option String} {name : String}
  {t t₁ t₂ t₃ : FileTree}

/-- Between two states the file of a place stays as it is, and nobody writes it. -/
structure SamePlace (l : Layout) (a : Place) (t t' : FileTree) : Prop where
  read : t'.read? (l.place a) = t.read? (l.place a)
  writes : t'.timesWritten (l.place a) = t.timesWritten (l.place a)

theorem SamePlace.refl (l : Layout) (a : Place) (t : FileTree) : SamePlace l a t t := ⟨rfl, rfl⟩

theorem SamePlace.trans {a : Place} (h : SamePlace l a t₁ t₂) (h' : SamePlace l a t₂ t₃) :
    SamePlace l a t₁ t₃ :=
  ⟨h'.read.trans h.read, h'.writes.trans h.writes⟩

theorem read?_congr {t : FileTree} {a b : String} (h : Path.normalize a = Path.normalize b) :
    t.read? a = t.read? b := by
  rw [read?, read?, h]

def SameOutputs (l : Layout) (n : String) (t t' : FileTree) : Prop :=
  ∀ a ∈ Place.outputs n, SamePlace l a t t'

theorem SameOutputs.trans {n : String} (h : SameOutputs l n t₁ t₂) (h' : SameOutputs l n t₂ t₃) :
    SameOutputs l n t₁ t₃ := fun a ha => (h a ha).trans (h' a ha)

/-- The template of a name is written at most once, and is there if it is. -/
def AtMostOnce (l : Layout) (n : String) (t t' : FileTree) : Prop :=
  t'.timesWritten (l.template n) = t.timesWritten (l.template n) ∨
  t'.timesWritten (l.template n) = t.timesWritten (l.template n) + 1 ∧ t'.has (l.template n)

/-- What a conversion does to the files while `chain` is under way and it makes `busy`: files stay,
what is under way or there already stays as it is, and other templates are written once at most. -/
structure Leaves (l : Layout) (chain : List String) (busy : Option String) (t t' : FileTree) :
    Prop where
  kept : ∀ path, t.has path → t'.has path
  same : ∀ n, Plain n → n ∈ chain ∨ (busy ≠ some n ∧ t.has (l.template n)) → SameOutputs l n t t'
  once : ∀ n, Plain n → ¬t.has (l.template n) → AtMostOnce l n t t'

theorem Leaves.refl (l : Layout) (chain : List String) (busy : Option String) (t : FileTree) :
    Leaves l chain busy t t where
  kept _ h := h
  same _ _ _ a _ := .refl l a t
  once _ _ _ := .inl rfl

/-- Two runs, one after the other, leave what each of them leaves. -/
theorem Leaves.trans (h : Leaves l chain none t₁ t₂) (h' : Leaves l chain none t₂ t₃) :
    Leaves l chain none t₁ t₃ where
  kept path hpath := h'.kept path (h.kept path hpath)
  same n hn hthere := by
    have hthere' : n ∈ chain ∨ (none ≠ some n ∧ t₂.has (l.template n)) :=
      hthere.imp_right fun ⟨hfree, hhas⟩ => ⟨hfree, h.kept _ hhas⟩
    exact (h.same n hn hthere).trans (h'.same n hn hthere')
  once n hn habsent := by
    by_cases hthere : t₂.has (l.template n)
    · -- From here on the template is there, and stays as it is.
      have hsame := (h'.same n hn (.inr ⟨nofun, hthere⟩) _ List.mem_cons_self).writes
      rcases h.once n hn habsent with hnone | ⟨hone, -⟩
      · exact .inl (hsame.trans hnone)
      · exact .inr ⟨hsame.trans hone, h'.kept _ hthere⟩
    · have hnone := (h.once n hn habsent).resolve_right fun ⟨_, hhas⟩ => hthere hhas
      rw [AtMostOnce, ← hnone]
      exact h'.once n hn hthere

/-- What is made for a name that is not there yet is nothing that has to stay. -/
theorem Leaves.of_absent (h : Leaves l chain (some name) t₁ t₂) (habsent : ¬t₁.has (l.template name)) :
    Leaves l chain none t₁ t₂ where
  kept := h.kept
  same n hn hthere := h.same n hn <| hthere.imp_right fun ⟨_, hhas⟩ =>
    ⟨fun hname => habsent (Option.some.inj hname ▸ hhas), hhas⟩
  once := h.once

/-- Every file stays, and those of the places that are spared stay as they are. -/
structure Spares (l : Layout) (spared : Place → Prop) (t t' : FileTree) : Prop where
  kept : ∀ path, t.has path → t'.has path
  same : ∀ a, a.IsPlain → spared a → SamePlace l a t t'

theorem Spares.refl (l : Layout) (spared : Place → Prop) (t : FileTree) : Spares l spared t t :=
  ⟨fun _ h => h, fun a _ _ => .refl l a t⟩

theorem Spares.trans {spared : Place → Prop} (h : Spares l spared t₁ t₂)
    (h' : Spares l spared t₂ t₃) : Spares l spared t₁ t₃ :=
  ⟨fun path hpath => h'.kept path (h.kept path hpath),
    fun a ha hspared => (h.same a ha hspared).trans (h'.same a ha hspared)⟩

theorem spares_write (hl : l.HasStandardOutputs) {a : Place} (ha : a.IsPlain)
    {spared : Place → Prop} (hspared : ¬spared a) (contents : String) (t : FileTree) :
    Spares l spared t (t.write (l.place a) contents) where
  kept _ h := has_write _ _ h
  same b hb hb' := by
    have hne : Path.normalize (l.place b) ≠ Path.normalize (l.place a) := fun h =>
      hspared (hl.place_injective hb ha h ▸ hb')
    exact ⟨read?_write_of_ne t contents hne, timesWritten_write_of_ne t contents hne⟩

/-- A conversion of `name` writes its template once and leaves the files of other names alone. -/
structure Makes (l : Layout) (name : String) (t t' : FileTree) : Prop where
  kept : ∀ path, t.has path → t'.has path
  same : ∀ n, Plain n → n ≠ name → SameOutputs l n t t'
  once : t'.timesWritten (l.template name) = t.timesWritten (l.template name) + 1
  made : t'.has (l.template name)

/-- The template first, then what belongs to it and the registry. -/
theorem makes_of_write (hl : l.HasStandardOutputs) (hname : Plain name) (contents : String)
    (h : Spares l (· ∉ [.definition name, .review name, .registry])
      (t₁.write (l.template name) contents) t₂) : Makes l name t₁ t₂ := by
  have htemplate := h.same (.template name) hname (by simp)
  have hwritten : Spares l (· ∉ [.template name]) t₁ (t₁.write (l.template name) contents) :=
    spares_write hl (a := .template name) hname (by simp) contents t₁
  refine ⟨fun path hpath => h.kept path (hwritten.kept path hpath), fun n hn hne a ha => ?_, ?_, ?_⟩
  · have hplain : a.IsPlain := by
      simp only [Place.outputs, List.mem_cons, List.not_mem_nil, or_false] at ha
      rcases ha with rfl | rfl | rfl <;> exact hn
    have hother : a ∉ [.template name] ∧ a ∉ [.definition name, .review name, .registry] := by
      simp only [Place.outputs, List.mem_cons, List.not_mem_nil, or_false] at ha
      rcases ha with rfl | rfl | rfl <;> simp [hne]
    exact (hwritten.same a hplain hother.1).trans (h.same a hplain hother.2)
  · exact htemplate.writes.trans (timesWritten_write_self t₁ _ contents)
  · exact h.kept _ (by simp [has])

/-- After the components that it renders, a conversion makes its own files. -/
theorem Leaves.makes (h : Leaves l (chain ++ [name]) none t₁ t₂) (h' : Makes l name t₂ t₃)
    (hnew : name ∉ chain) : Leaves l chain (some name) t₁ t₃ where
  kept path hpath := h'.kept path (h.kept path hpath)
  same n hn hthere := by
    have hne : n ≠ name := by
      rintro rfl
      exact hthere.elim hnew fun ⟨hfree, _⟩ => hfree rfl
    have hthere' : n ∈ chain ++ [name] ∨ (none ≠ some n ∧ t₁.has (l.template n)) :=
      hthere.imp (List.mem_append_left _) fun ⟨_, hhas⟩ => ⟨nofun, hhas⟩
    exact (h.same n hn hthere').trans (h'.same n hn hne)
  once n hn habsent := by
    by_cases hname : n = name
    · subst hname
      have hsame := (h.same n hn (.inl (by simp)) _ List.mem_cons_self).writes
      exact .inr ⟨h'.once.trans (congrArg (· + 1) hsame), h'.made⟩
    · have hsame := (h'.same n hn hname _ List.mem_cons_self).writes
      rcases h.once n hn habsent with hnone | ⟨hone, hhas⟩
      · exact .inl (hsame.trans hnone)
      · exact .inr ⟨hsame.trans hone, h'.kept _ hhas⟩

/-- A conversion that makes nothing leaves at least what it would leave otherwise. -/
theorem Leaves.weaken (h : Leaves l (chain ++ [name]) none t₁ t₂) :
    Leaves l chain (some name) t₁ t₂ where
  kept := h.kept
  same n hn hthere := h.same n hn <|
    hthere.imp (List.mem_append_left _) fun ⟨_, hhas⟩ => ⟨nofun, hhas⟩
  once := h.once

end FileTree

namespace Conversion
open FileTree

variable {α β : Type} {x : Conversion α} {f : α → Conversion β} {P Q R : FileTree → FileTree → Prop}

/-- The files go from one state to another as `P` says, if every conversion that starts on the way has
a plain name. -/
def Goes (P : FileTree → FileTree → Prop) (w w' : Workspace) : Prop :=
  ∃ events, w'.trace = w.trace ++ events ∧
    ((∀ n ∈ Event.started events, Plain n) → P w.tree w'.tree)

theorem Goes.mono {w w' : Workspace} (h : Goes P w w') (hPQ : P w.tree w'.tree → Q w.tree w'.tree) :
    Goes Q w w' := by
  obtain ⟨events, htrace, hgoes⟩ := h
  exact ⟨events, htrace, fun hplain => hPQ (hgoes hplain)⟩

/-- Steps one after the other relate their files by any relation that both lead to. -/
theorem Goes.trans {w₁ w₂ w₃ : Workspace} (h : Goes P w₁ w₂) (h' : Goes Q w₂ w₃)
    (hPQ : ∀ t₁ t₂ t₃, P t₁ t₂ → Q t₂ t₃ → R t₁ t₃) : Goes R w₁ w₃ := by
  obtain ⟨events, htrace, hgoes⟩ := h
  obtain ⟨events', htrace', hgoes'⟩ := h'
  refine ⟨events ++ events', ?_, fun hplain => ?_⟩
  · rw [htrace', htrace, List.append_assoc]
  · rw [Event.started_append] at hplain
    exact hPQ _ _ _ (hgoes fun n hn => hplain n (List.mem_append_left _ hn))
      (hgoes' fun n hn => hplain n (List.mem_append_right _ hn))

/-- Whatever comes of the step, the files go as `P` says. -/
def Does (P : FileTree → FileTree → Prop) (x : Conversion α) : Prop :=
  ∀ w, Goes P w (x.run.run w).2

theorem Does.mono (h : Does P x) (hPQ : ∀ t t', P t t' → Q t t') : Does Q x := fun w =>
  (h w).mono (hPQ _ _)

theorem IsQuiet.does (h : IsQuiet x) (hP : ∀ t, P t t) : Does P x := by
  intro w
  obtain ⟨htree, events, htrace, -⟩ := h w
  refine ⟨events, htrace, fun _ => ?_⟩
  rw [htree]
  exact hP _

/-- Two steps, of which the second may not be taken. -/
theorem Does.bind (hx : Does P x) (hf : ∀ a, Does Q (f a))
    (hPQ : ∀ t₁ t₂ t₃, P t₁ t₂ → Q t₂ t₃ → R t₁ t₃) (hPR : ∀ t t', P t t' → R t t') :
    Does R (x >>= f) := by
  intro w
  have hw := hx w
  rw [run_bind]
  split
  · rename_i hrun
    rw [hrun] at hw
    exact hw.trans (hf _ _) hPQ
  · rename_i hrun
    rw [hrun] at hw
    exact hw.mono (hPR _ _)

/-- A quiet step changes nothing about what comes after it. -/
theorem IsQuiet.bind_does (hx : IsQuiet x) (hP : ∀ t, P t t) (hf : ∀ a, Does P (f a)) :
    Does P (x >>= f) :=
  (hx.does (P := fun t t' => t' = t) fun _ => rfl).bind hf (fun _ _ _ h h' => h ▸ h')
    fun t _ h => h ▸ hP t

theorem does_write (path contents : String) :
    Does (fun t t' => t' = t.write path contents) (write path contents) := fun _ =>
  ⟨[], (List.append_nil _).symm, fun _ => rfl⟩

/-- The name of a conversion that starts is plain. -/
theorem does_start (component name : String) (aliases : List String) :
    Does (fun t t' => t' = t ∧ Plain name) (emit [.start component name aliases]) := fun _ =>
  ⟨_, rfl, fun hplain => ⟨rfl, hplain name List.mem_cons_self⟩⟩

end Conversion

namespace Project
open Conversion FileTree

variable {p : Project} {chain : List String}

/-- Once the template of a plain name is written, only what belongs to it is written, and the
registry. -/
def Completes (l : Layout) (name : String) (t t' : FileTree) : Prop :=
  Plain name → Spares l (· ∉ [.definition name, .review name, .registry]) t t'

theorem completes_refl (l : Layout) (name : String) (t : FileTree) : Completes l name t t :=
  fun _ => .refl l _ t

theorem Completes.trans {l : Layout} {name : String} (t₁ t₂ t₃ : FileTree)
    (h : Completes l name t₁ t₂) (h' : Completes l name t₂ t₃) : Completes l name t₁ t₃ :=
  fun hname => (h hname).trans (h' hname)

theorem Completes.bind {α β : Type} {l : Layout} {name : String} {x : Conversion α}
    {f : α → Conversion β} (hx : Does (Completes l name) x) (hf : ∀ a, Does (Completes l name) (f a)) :
    Does (Completes l name) (x >>= f) :=
  hx.bind hf Completes.trans fun _ _ h => h

theorem completes_write (hl : p.layout.HasStandardOutputs) {name : String} {a : Place}
    (ha : a ∈ [.definition name, .review name, .registry]) (contents : String) :
    Does (Completes p.layout name) (write (p.layout.place a) contents) := by
  refine (does_write _ _).mono fun t t' h hname => ?_
  have hplain : a.IsPlain := by
    simp only [List.mem_cons, List.not_mem_nil, or_false] at ha
    rcases ha with rfl | rfl | rfl
    · exact hname
    · exact hname
    · trivial
  rw [h]
  exact spares_write hl hplain (not_not_intro ha) contents t

theorem completes_writeOutput (hl : p.layout.HasStandardOutputs) {name : String} {a : Place}
    (ha : a ∈ [.definition name, .review name, .registry]) (title contents : String) :
    Does (Completes p.layout name) (writeOutput p.layout title (p.layout.place a) contents) :=
  (isQuiet_emit rfl).bind_does (completes_refl _ _) fun _ =>
    Completes.bind (completes_write hl ha contents) fun _ =>
      (isQuiet_emit rfl).does (completes_refl _ _)

theorem completes_registerAliases (hl : p.layout.HasStandardOutputs) (name : String)
    (aliases : List String) :
    Does (Completes p.layout name) (registerAliases p.layout name aliases) := by
  rw [registerAliases]
  split
  · exact (isQuiet_pure _).does (completes_refl _ _)
  · refine (isQuiet_emit rfl).bind_does (completes_refl _ _) fun _ => ?_
    refine isQuiet_files.bind_does (completes_refl _ _) fun tree => ?_
    split
    · exact (isQuiet_throw _).does (completes_refl _ _)
    · refine (isQuiet_registerAll _ _ _).bind_does (completes_refl _ _) fun registry => ?_
      refine Completes.bind (completes_write hl (a := .registry) (by simp) registry.text) fun _ => ?_
      exact (isQuiet_emit rfl).does (completes_refl _ _)

/-- Making a component writes its template once. -/
theorem does_finish (hl : p.layout.HasStandardOutputs) (time name : String) (aliases : List String)
    (nested : List NestedOutcome) (out : Output) :
    Does (fun t t' => Plain name → Makes p.layout name t t')
      (p.finish time name aliases nested out) := by
  refine (does_write _ _).bind (Q := Completes p.layout name) (fun _ => ?_) ?_ ?_
  · refine (isQuiet_emit rfl).bind_does (completes_refl _ _) fun _ => ?_
    refine Completes.bind (completes_writeOutput hl (a := .definition name) (by simp) _ _) fun _ => ?_
    refine Completes.bind (completes_writeOutput hl (a := .review name) (by simp) _ _) fun _ => ?_
    refine Completes.bind (completes_registerAliases hl name aliases) fun _ => ?_
    exact ((isQuiet_emit rfl).bind fun _ => isQuiet_pure _).does (completes_refl _ _)
  · intro t₁ t₂ t₃ hwrite h hname
    exact makes_of_write hl hname out.template (hwrite ▸ h hname)
  · intro t t' hwrite hname
    exact makes_of_write hl hname out.template (hwrite ▸ .refl _ _ _)

/-- The files made for a name are the work of one conversion. -/
theorem Output.makes_writeTo {l : Layout} (hl : l.HasStandardOutputs) {name : String}
    (hname : Plain name) (out : Output) (time : String) (t : FileTree) :
    Makes l name t (out.writeTo l name time t) := by
  refine makes_of_write hl hname out.template ?_
  exact (spares_write hl (a := .definition name) hname (by simp) _ _).trans
    (spares_write hl (a := .review name) hname (by simp) _ _)

/-! ### Nested components -/

def Careful (p : Project) (convert : Converter) : Prop := ∀ chain f options,
  Does (Leaves p.layout chain (some (options.outputName.getD f.component))) (convert chain f options)

variable {convert : Converter}

theorem Leaves.bind {α β : Type} {l : Layout} {x : Conversion α} {f : α → Conversion β}
    (hx : Does (Leaves l chain none) x) (hf : ∀ a, Does (Leaves l chain none) (f a)) :
    Does (Leaves l chain none) (x >>= f) :=
  hx.bind hf (fun _ _ _ => Leaves.trans) fun _ _ h => h

/-- Only a component without a template is converted, so that what is there stays. -/
theorem leaves_ensureNested (hconvert : Careful p convert) (chain : List String)
    (n : NestedComponent) : Does (Leaves p.layout chain none) (p.ensureNested convert chain n) := by
  rw [ensureNested]
  split
  · exact (isQuiet_pure _).does (.refl _ _ _)
  · rename_i path _
    intro w
    rw [run_bind, run_files]
    dsimp only
    split
    · exact (isQuiet_pure _).does (.refl _ _ _) w
    · rename_i habsent
      have hstep := hconvert chain (nestedFiles p w.tree n path) { outputName := some n.name } w
      rw [run_attempt]
      split <;> rename_i hrun <;> rw [hrun] at hstep <;> exact hstep.mono fun h => h.of_absent habsent

theorem leaves_convertOne (hconvert : Careful p convert) (chain : List String)
    (n : NestedComponent) : Does (Leaves p.layout chain none) (p.convertOne convert chain n) := by
  refine Leaves.bind (leaves_ensureNested hconvert chain n) fun outcome => ?_
  split
  · exact ((isQuiet_emit rfl).bind fun _ => isQuiet_pure _).does (.refl _ _ _)
  · exact (isQuiet_pure _).does (.refl _ _ _)

theorem leaves_convertEach (hconvert : Careful p convert) (chain : List String) (wanted : Bool)
    (nested : List NestedComponent) :
    Does (Leaves p.layout chain none) (p.convertEach convert chain wanted nested) := by
  induction nested with
  | nil => exact (isQuiet_pure _).does (.refl _ _ _)
  | cons n rest ih =>
    refine (isQuiet_emit rfl).bind_does (.refl _ _ _) fun _ => ?_
    split
    · refine Leaves.bind (leaves_convertOne hconvert chain n) fun _ => ?_
      exact Leaves.bind ih fun _ => (isQuiet_pure _).does (.refl _ _ _)
    · exact ih

theorem leaves_convertNested (hconvert : Careful p convert) (chain : List String) (wanted : Bool)
    (nested : List NestedComponent) :
    Does (Leaves p.layout chain none) (p.convertNested convert chain wanted nested) := by
  rw [convertNested]
  split
  · exact (isQuiet_emit rfl).bind_does (.refl _ _ _) fun _ => leaves_convertEach hconvert chain _ _
  · exact leaves_convertEach hconvert chain _ _

/-! ### Whole conversions -/

/-- A conversion leaves what the others make, but for what belongs to its own name. -/
theorem leaves_run (hl : p.layout.HasStandardOutputs) (hconvert : Careful p convert)
    (time : String) {name : String} (hnew : name ∉ chain) (f : SourceFiles)
    (options : ConvertOptions) :
    Does (Leaves p.layout chain (some name))
      (p.run time convert (chain ++ [name]) name f options) := by
  -- The first event tells that the name is plain, which the files it makes depend on.
  refine (does_start f.component name options.aliases).bind
    (Q := fun t t' => Plain name → Leaves p.layout chain (some name) t t') (fun _ => ?_)
    (fun _ _ _ ⟨hsame, hname⟩ h => hsame ▸ h hname) fun _ _ ⟨hsame, _⟩ => hsame ▸ .refl _ _ _ _
  have hrefl : ∀ t, Plain name → Leaves p.layout chain (some name) t t := fun t _ => .refl _ _ _ t
  refine (isQuiet_readSource p name f).bind_does hrefl fun read => ?_
  refine (isQuiet_customize p _ _).bind_does hrefl fun customized => ?_
  refine (isQuiet_ofExcept _).bind_does hrefl fun root => ?_
  refine isQuiet_files.bind_does hrefl fun tree => ?_
  refine (leaves_convertNested hconvert (chain ++ [name]) _ _).bind
    (Q := fun t t' => t' = t ∨ (Plain name → Makes p.layout name t t')) (fun nested => ?_) ?_
    fun _ _ h _ => h.weaken
  · refine (isQuiet_emit ?_).bind_does (fun _ => .inl rfl) fun _ => ?_
    · rw [Parts.events, Event.started_append, started_events]
      rfl
    · exact (does_finish hl time name _ _ _).mono fun _ _ => .inr
  · rintro t₁ t₂ t₃ h (rfl | hmakes) hname
    · exact h.weaken
    · exact h.makes (hmakes hname) hnew

theorem careful_convertWithin (hl : p.layout.HasStandardOutputs) (time : String) (depth : Nat) :
    Careful p (p.convertWithin time depth) := by
  induction depth with
  | zero => exact fun _ _ _ => (isQuiet_throw _).does (.refl _ _ _)
  | succ depth ih =>
    intro chain f options
    rw [convertWithin, convertStep]
    split
    · exact (isQuiet_throw _).does (.refl _ _ _)
    · rename_i hnew
      exact leaves_run hl ih time (by simpa using hnew) f options

/-- The files of a component are located under its name. -/
theorem component_of_locate {component : String} {w w' : Workspace} {f : SourceFiles}
    (h : (p.locate component).run.run w = (.ok f, w')) : f.component = component := by
  rw [locate, run_bind, run_files] at h
  dsimp only at h
  split at h
  · cases h
  · cases h
    rfl

/-- A conversion leaves what it should, under the name of what it makes. -/
theorem leaves_convert (hl : p.layout.HasStandardOutputs) (time component : String)
    (options : ConvertOptions) :
    Does (Leaves p.layout [] (some (options.outputName.getD component)))
      (p.convert time component options) := by
  intro w
  have hlocate := (isQuiet_locate p component).does (P := fun t t' => t' = t) (fun _ => rfl) w
  rw [convert, run_bind]
  split
  · rename_i f w₁ hrun
    have hcareful := careful_convertWithin hl time (depthBound w₁.tree) [] f options w₁
    rw [component_of_locate hrun] at hcareful
    rw [hrun] at hlocate
    rw [run_bind, run_files]
    exact hlocate.trans hcareful fun _ _ _ h h' => h ▸ h'
  · rename_i hrun
    rw [hrun] at hlocate
    exact hlocate.mono fun h => h ▸ .refl _ _ _ _

def startedSince (w w' : Workspace) : List String := Event.started (w'.trace.drop w.trace.length)

/-- Whatever comes of a conversion, and whatever the imports are: what is made for another name whose
template was there before stays as it is, and a template that was not there before is written once at
most. Names have to be plain, also those of the components that are converted on the way. -/
theorem generated_components_left_alone (p : Project) (hl : p.layout.HasStandardOutputs)
    (time component : String) (options : ConvertOptions) (w w' : Workspace)
    (r : Except ConvertError Summary)
    (hrun : (p.convert time component options).run.run w = (r, w'))
    (hname : Plain (options.outputName.getD component))
    (hnested : ∀ n ∈ startedSince w w', n ≠ options.outputName.getD component → Plain n) :
    (∀ n, Plain n → n ≠ options.outputName.getD component → w.tree.has (p.layout.template n) →
      ∀ a ∈ Place.outputs n, w'.tree.read? (p.layout.place a) = w.tree.read? (p.layout.place a)) ∧
    (∀ n, Plain n → ¬w.tree.has (p.layout.template n) →
      w'.tree.timesWritten (p.layout.template n) ≤ w.tree.timesWritten (p.layout.template n) + 1) := by
  have hgoes := leaves_convert hl time component options w
  rw [hrun] at hgoes
  obtain ⟨events, htrace, hleaves⟩ := hgoes
  have hstarted : startedSince w w' = Event.started events := by
    rw [startedSince, htrace, List.drop_left]
  have h := hleaves fun n hn => by
    by_cases heq : n = options.outputName.getD component
    · exact heq ▸ hname
    · exact hnested n (hstarted ▸ hn) heq
  refine ⟨fun n hn hne hthere a ha => ?_, fun n hn habsent => ?_⟩
  · have hfree : some (options.outputName.getD component) ≠ some n := fun heq =>
      hne (Option.some.inj heq).symm
    exact (h.same n hn (.inr ⟨hfree, hthere⟩) a ha).read
  · rcases h.once n hn habsent with hnone | ⟨hone, -⟩
    · exact Nat.le_succ_of_le (Nat.le_of_eq hnone)
    · exact Nat.le_of_eq hone

/-! ### Cards with one component in them -/

def cardFiles : SourceFiles := ⟨"card", "card", "/p/rvo/components/card/src/template.tsx", none⟩

/-- A card and the component in it have their code in place, nothing customizes them, and the component
is not made yet. -/
def CardInPlace (t : FileTree) (code code' inner path : String) : Prop :=
  t.read? cardFiles.template = some code ∧ t.read? path = some code' ∧
  t.has (Path.join (Path.join standardProject.layout.components "card")
    standardProject.config.defaultsFile) = false ∧
  (∀ name ∈ ["card", inner], (Customization.load standardProject.layout.customizations name
    t).toOption.any (Option.all Customization.isVoid) = true) ∧
  inner ≠ "card" ∧ t.has (standardProject.layout.template inner) = false

instance (t : FileTree) (code code' inner path : String) :
    Decidable (CardInPlace t code code' inner path) :=
  inferInstanceAs (Decidable (_ ∧ _))

/-- The component in a card is made, then the card. The characters of their code are given apart. -/
theorem convert_card {w : Workspace} {code code' inner path : String} (hint : String)
    {cs cs' : List Char} (hplace : CardInPlace w.tree code code' inner path)
    (hcode : code.toList = cs) (hcode' : code'.toList = cs')
    (hcard : ∀ text : String, text.toList = cs →
      (bareParts? w.tree "card" cardFiles code (Source.parse text none cardFiles.hint)).any
        (fun x => x.nested.map (fun n => (n.name, n.resolvedPath,
            nestedFiles standardProject w.tree n path)) =
          [(inner, some path, ⟨inner, hint, path, none⟩)]) = true)
    (hinner : ∀ text : String, text.toList = cs' →
      (bareParts? w.tree inner ⟨inner, hint, path, none⟩ code' (Source.parse text none hint)).any
        (fun x => x.nested = []) = true) :
    ∃ s w', ∃ out out' : Output, (standardProject.convert "" "card" {}).run.run w = (.ok s, w') ∧
      w'.tree = out.writeTo standardProject.layout "card" ""
        (out'.writeTo standardProject.layout inner "" w.tree) ∧ Starts ["card", inner] w w' := by
  obtain ⟨hread, hread', hdefaults, hcustom, hname, habsent⟩ := hplace
  obtain ⟨x, hx, hnested⟩ := (Option.any_eq_true _ _).1 (hcard code hcode)
  obtain ⟨x', hx', hnested'⟩ := (Option.any_eq_true _ _).1 (hinner code' hcode')
  obtain ⟨source, root, hbare, rfl⟩ :=
    isBare_of_bareParts? (p := standardProject) hread rfl (hcustom "card" (by simp)) hx
  obtain ⟨source', root', hbare', rfl⟩ := isBare_of_bareParts? (p := standardProject)
    (f := ⟨inner, hint, path, none⟩) hread' rfl (hcustom inner (by simp)) hx'
  obtain ⟨n, hn, hfields⟩ := List.map_eq_singleton_iff.1 (of_decide_eq_true hnested)
  simp only [Prod.mk.injEq] at hfields
  obtain ⟨rfl, hpath, hfiles⟩ := hfields
  have htemplate : Path.join (Path.join standardProject.layout.components "card")
      standardProject.config.templateFile = cardFiles.template := by decide +kernel
  have hlocate := locate_of_has standardProject "card"
    (by rw [htemplate, FileTree.has, hread]; rfl) hdefaults
  rw [htemplate] at hlocate
  exact convert_with_one "" hlocate rfl hbare hn hpath hname habsent hfiles hbare'
    (of_decide_eq_true hnested')

def buttonCard : Workspace :=
  { tree := { files := [("/p/rvo/components/card/src/button.tsx", "const Button = () => <b />;"),
      ("/p/rvo/components/card/src/template.tsx",
        "import Button from './button'; const C = () => <Button />;"),
      ("/p/templates/components/box.html.j2", "<p></p>")] } }

theorem box_stays_button_written_once :
    let w' := ((standardProject.convert "" "card" {}).run.run buttonCard).2
    (∀ a ∈ Place.outputs "box", w'.tree.read? (standardProject.layout.place a) =
      buttonCard.tree.read? (standardProject.layout.place a)) ∧
    w'.tree.timesWritten "/p/templates/components/button.html.j2" = 1 := by
  intro w'
  have hl : standardProject.layout.HasStandardOutputs := Layout.hasStandardOutputs_layout "/p"
  obtain ⟨hbox, hplace⟩ : buttonCard.tree.has (standardProject.layout.template "box") ∧
      CardInPlace buttonCard.tree "import Button from './button'; const C = () => <Button />;"
        "const Button = () => <b />;" "button" "/p/rvo/components/card/src/button.tsx" := by
    decide +kernel
  have ⟨_, _, _, _, _, hfalse⟩ := hplace
  have habsent : ¬buttonCard.tree.has (standardProject.layout.template "button") := by simp [hfalse]
  obtain ⟨s, w₁, out, out', hrun, htree, events, htrace, hevents⟩ := convert_card "Button" hplace
    String.toList_ofList String.toList_ofList
    (fun text htext => by
      rw [Source.parse, htext]
      decide +kernel)
    (fun text htext => by
      rw [Source.parse, htext]
      decide +kernel)
  obtain rfl : w' = w₁ := congrArg Prod.snd hrun
  have hstarted : ∀ n ∈ startedSince buttonCard w', n ≠ "card" → Plain n := by
    rw [startedSince, htrace, List.drop_left, hevents]
    decide
  have h := generated_components_left_alone standardProject hl "" "card" {} buttonCard w' _ hrun
    (by decide) hstarted
  have hcard : Makes standardProject.layout "card"
      (out'.writeTo standardProject.layout "button" "" buttonCard.tree) w'.tree := by
    rw [htree]
    exact Output.makes_writeTo hl (by decide) out "" _
  have hsame := hcard.same "button" (by decide) (by decide) (.template "button")
    (by simp [Place.outputs])
  have hbutton := (Output.makes_writeTo hl (by decide : Plain "button") out' "" buttonCard.tree).once
  have hwritten : w'.tree.timesWritten (standardProject.layout.template "button") =
      buttonCard.tree.timesWritten (standardProject.layout.template "button") + 1 :=
    hsame.writes.trans hbutton
  exact ⟨h.1 "box" (by decide) (by decide) hbox,
    Nat.le_antisymm (h.2 "button" (by decide) habsent) (Nat.le_of_eq hwritten.symm)⟩

def strayCard : Workspace :=
  { tree := { files := [("/p/conversion/definitions/button.json", "\x7b\x7d"),
      ("/p/rvo/components/card/src/template.tsx",
        "import \x7b../definitions/button as X\x7d from './x'; const C = () => <X />;"),
      ("/p/rvo/components/card/src/x.tsx", "const B = () => <b />;"),
      ("/p/templates/components/button.html.j2", "<button></button>")] } }

theorem text_ne_braces (d : Definition) : d.text ≠ "\x7b\x7d" := by
  intro h
  have hlast := congrArg (fun text => text.toList.getLast?) h
  simp [Definition.text] at hlast

/-- Without plain names on the way, what is made for another name need not stay. -/
theorem stray_card_overwrites_button :
    standardProject.layout.HasStandardOutputs ∧ Plain "card" ∧ Plain "button" ∧
    strayCard.tree.has (standardProject.layout.template "button") ∧
    ((standardProject.convert "" "card" {}).run.run strayCard).2.tree.read?
        (standardProject.layout.definition "button") ≠
      strayCard.tree.read? (standardProject.layout.definition "button") := by
  have hl : standardProject.layout.HasStandardOutputs := Layout.hasStandardOutputs_layout "/p"
  obtain ⟨hthere, hold, hplace⟩ : strayCard.tree.has (standardProject.layout.template "button") ∧
      strayCard.tree.read? (standardProject.layout.definition "button") = some "\x7b\x7d" ∧
      CardInPlace strayCard.tree
        "import \x7b../definitions/button as X\x7d from './x'; const C = () => <X />;"
        "const B = () => <b />;" "../definitions/button" "/p/rvo/components/card/src/x.tsx" := by
    decide +kernel
  obtain ⟨s, w', out, out', hrun, htree, -⟩ := convert_card "../definitions/button" hplace
    String.toList_ofList String.toList_ofList
    (fun text htext => by
      rw [Source.parse, htext]
      decide +kernel)
    (fun text htext => by
      rw [Source.parse, htext]
      decide +kernel)
  have hcard : Makes standardProject.layout "card"
      (out'.writeTo standardProject.layout "../definitions/button" "" strayCard.tree) w'.tree := by
    rw [htree]
    exact Output.makes_writeTo hl (by decide) out "" _
  have hsame := hcard.same "button" (by decide) (by decide) (.definition "button")
    (by simp [Place.outputs])
  have hreview : Path.normalize (standardProject.layout.definition "button") ≠
      Path.normalize (standardProject.layout.reviewDocument "../definitions/button") := by
    decide +kernel
  -- the way up and down again leads to the definition of the button
  have hdefinition : Path.normalize (standardProject.layout.definition "button") =
      Path.normalize (standardProject.layout.definition "../definitions/button") := by
    decide +kernel
  have hread : w'.tree.read? (standardProject.layout.definition "button") =
      some (out'.definitionOf "../definitions/button" "").text := by
    refine hsame.read.trans ?_
    show FileTree.read? _ (standardProject.layout.definition "button") = _
    rw [Output.writeTo, read?_write_of_ne _ _ hreview, read?_congr hdefinition, read?_write_self]
  refine ⟨hl, by decide, by decide, hthere, ?_⟩
  rw [hrun, hold, hread]
  exact fun h => text_ne_braces _ (Option.some.inj h)

end Project

end JsxToJinja
