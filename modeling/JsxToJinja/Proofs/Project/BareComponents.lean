import JsxToJinja.Proofs.Project.Course

/-! Components without defaults that nothing customizes. What is known of them is what reading their
code gives, so what becomes of a conversion is told from that. -/
namespace JsxToJinja

namespace Customization

/-- It changes nothing. -/
def isVoid (c : Customization) : Bool :=
  c.overrides.isEmpty && c.additions.isEmpty && c.defaults.isEmpty && c.aliases.isEmpty &&
    !c.childrenSupport && c.passThrough.isEmpty && c.notes.isEmpty && c.customContent.isNone

theorem eq_of_isVoid {c : Customization} (h : c.isVoid = true) : c = {} := by
  cases c
  simp only [isVoid, Bool.and_eq_true, List.isEmpty_iff, Bool.not_eq_true',
    Option.isNone_iff_eq_none] at h
  simp [h]

theorem apply_empty {m : Type → Type} [Monad m] [LawfulMonad m]
    (lookup : String → m (List String)) (attributes : List Attribute) :
    apply lookup {} attributes = pure (attributes, {}) := by
  have hkept : ∀ as : List Attribute, overrideAll lookup [] as = pure as := by
    intro as
    induction as with
    | nil => rfl
    | cons a rest ih => simp [overrideAll, Dict.get?, ih]
  simp [apply, hkept, addAll, addContent]

end Customization

open Conversion

namespace Project

variable {p : Project} {name component text : String} {convert : Converter} {chain : List String}
  {f : SourceFiles} {options : ConvertOptions} {w w' : Workspace} {s : Summary} {t t' : FileTree}
  {source : Source} {root : Reviewed Markup.Element} {x : Parts} {nested : List NestedComponent}
  {outcomes : List NestedOutcome} {failures : List ReviewItem} {names : List String}

/-! ### What is known of a component -/

/-- A component without defaults and customization, and what reading it gives. -/
structure IsBare (p : Project) (t : FileTree) (name : String) (f : SourceFiles) (text : String)
    (source : Source) (root : Reviewed Markup.Element) : Prop where
  read : t.read? f.template = some text
  defaults : f.defaults = none
  parse : Source.parse text none f.hint = .ok source
  body : source.renderBody ≠ []
  custom : (Customization.load p.layout.customizations f.component t).toOption.any
    (Option.all Customization.isVoid) = true
  root : rootElement name source = .ok root

def bareParts (text : String) (source : Source) (root : Reviewed Markup.Element)
    (nested : List NestedComponent) (failures : List ReviewItem) : Parts :=
  ⟨text, source, source.attributes, {}, root, nested, failures⟩

theorem read_of_read? {tree : FileTree} {path : String} (h : tree.read? path = some text)
    (tokens : Option (Dict Token)) (trace : List Event) :
    (read path).run.run ⟨tree, tokens, trace⟩ = (.ok text, ⟨tree, tokens, trace⟩) := by
  rw [Conversion.read, run_bind, run_files]
  dsimp only
  rw [h]
  rfl

theorem customize_of_isVoid
    (h : (Customization.load p.layout.customizations component w.tree).toOption.any
      (Option.all Customization.isVoid) = true) (attributes : List Attribute) :
    ∃ w', (p.customize component attributes).run.run w = (.ok (attributes, {}), w') ∧
      Quiet w w' := by
  have hrun : ∃ w', (p.customize component attributes).run.run w = (.ok (attributes, {}), w') := by
    rw [customize, run_bind, run_files]
    dsimp only
    cases hload : Customization.load p.layout.customizations component w.tree with
    | error e =>
      rw [hload] at h
      cases h
    | ok found =>
      rw [hload] at h
      cases found with
      | none => exact ⟨w, rfl⟩
      | some c =>
        cases Customization.eq_of_isVoid h
        have happly := Customization.apply_empty (tokenValues p.layout.customizations) attributes
        exact ⟨_, run_bind_ok.2 ⟨some {}, w, rfl, run_bind_ok.2 ⟨(), _, rfl,
          run_bind_ok.2 ⟨(attributes, {}), _, by rw [happly]; rfl, rfl⟩⟩⟩⟩
  obtain ⟨w', hrun⟩ := hrun
  have hquiet := isQuiet_customize p component attributes w
  rw [hrun] at hquiet
  exact ⟨w', hrun, hquiet⟩

theorem IsBare.readSource (h : IsBare p t name f text source root) (hw : w.tree = t) :
    ∃ w₁, (p.readSource name f).run.run w = (.ok (text, source), w₁) ∧ Quiet w w₁ := by
  subst hw
  have hrun : ((p.readSource name f).run.run w).1 = .ok (text, source) := by
    have hsource : (ofExcept ((Source.parse text none f.hint).mapError .parse) : Conversion Source) =
        pure source := by
      rw [h.parse]
      rfl
    rw [Project.readSource, run_bind, run_emit]
    dsimp only
    rw [run_bind, read_of_read? h.read]
    simp only [h.defaults, pure_bind, hsource, List.isEmpty_iff, h.body]
    rfl
  exact ⟨_, Prod.ext hrun rfl, isQuiet_readSource p name f w⟩

/-- What is known of such a component is what its source says, and what comes of the components in it. -/
theorem IsBare.gather (h : IsBare p w.tree name f text source root) (convert : Converter)
    (chain : List String) (options : ConvertOptions)
    (hnested : NestedComponent.detect w.tree source.imports source.renderBody f.template = nested)
    (hconvert : ∀ w₁, w₁.tree = w.tree → ∃ w₂,
      (p.convertNested convert chain options.convertNested nested).run.run w₁ =
        (.ok (outcomes, failures), w₂) ∧ w₂.tree = t' ∧ Starts names w₁ w₂) :
    ∃ w₂, (p.gather convert chain name f options).run.run w =
        (.ok (bareParts text source root nested failures, outcomes), w₂) ∧
      w₂.tree = t' ∧ Starts (name :: names) w w₂ := by
  have hstart := run_emit [.start f.component name options.aliases] w
  generalize hw₀ : ({ w with trace := _ } : Workspace) = w₀ at hstart
  have htree : w₀.tree = w.tree := by rw [← hw₀]
  have hstarts : Starts [name] w w₀ := by
    rw [← hw₀]
    exact ⟨_, rfl, rfl⟩
  obtain ⟨w₁, hread, hquiet⟩ := h.readSource htree
  have htree₁ : w₁.tree = w.tree := hquiet.tree.trans htree
  obtain ⟨w₂, hcustomized, hquiet₂⟩ := customize_of_isVoid (by rw [htree₁]; exact h.custom)
    source.attributes
  have htree₂ : w₂.tree = w.tree := hquiet₂.tree.trans htree₁
  obtain ⟨w₃, hconverted, htree₃, hstarts₃⟩ := hconvert w₂ htree₂
  refine ⟨w₃, ?_, htree₃, ((hstarts.trans hquiet.starts).trans hquiet₂.starts).trans hstarts₃⟩
  refine run_bind_ok.2 ⟨(), w₀, hstart, run_bind_ok.2 ⟨_, w₁, hread, run_bind_ok.2 ⟨_, w₂,
    hcustomized, run_bind_ok.2 ⟨root, w₂, ?_, run_bind_ok.2 ⟨w₂.tree, w₂, rfl, ?_⟩⟩⟩⟩⟩
  · rw [h.root]
    rfl
  · dsimp only
    rw [htree₂, hnested]
    exact run_bind_ok.2 ⟨_, w₃, hconverted, rfl⟩

/-! ### Conversions that come to an end -/

theorem finish_without_aliases (p : Project) (time name : String) (outcomes : List NestedOutcome)
    (out : Output) (w : Workspace) :
    ∃ s w', (p.finish time name [] outcomes out).run.run w = (.ok s, w') ∧
      w'.tree = out.writeTo p.layout name time w.tree ∧ Starts [] w w' := by
  refine ⟨_, _, rfl, rfl, ?_⟩
  exact ⟨_, by simp only [List.append_assoc]; rfl, rfl⟩

/-- A conversion without aliases ends well once all is gathered. -/
theorem course_of_gather (time : String)
    (hgathers : (p.gather convert chain name f options).run.run w = (.ok (x, outcomes), w'))
    (haliases : appendNew options.aliases x.applied.aliases = []) :
    ∃ s w'', ∃ c : Course p time convert chain name f options w w'' s, c.parts = x ∧
      w''.tree = (x.output p.library name (p.layout.relative f.template)).writeTo p.layout name time
        w'.tree ∧ Starts [] w' w'' := by
  have hreports := run_emit (x.events p.library) w'
  generalize hreported : ({ w' with trace := _ } : Workspace) = reported at hreports
  have htree : reported.tree = w'.tree := by rw [← hreported]
  have hstarts : Starts [] w' reported := by
    rw [← hreported]
    exact ⟨_, rfl, by rw [Parts.events, Event.started_append, started_events]; rfl⟩
  obtain ⟨s, w'', hfinishes, htree', hstarts'⟩ := finish_without_aliases p time name outcomes
    (x.output p.library name (p.layout.relative f.template)) reported
  rw [htree] at htree'
  rw [← haliases] at hfinishes
  exact ⟨s, w'', ⟨x, outcomes, w', reported, hgathers, hreports, hfinishes⟩, rfl, htree',
    hstarts.trans hstarts'⟩

/-- A bare component is made once the components in it are. -/
theorem IsBare.course (h : IsBare p w.tree name f text source root) (time : String)
    (convert : Converter) (chain : List String) (options : ConvertOptions)
    (haliases : options.aliases = [])
    (hnested : NestedComponent.detect w.tree source.imports source.renderBody f.template = nested)
    (hconvert : ∀ w₁, w₁.tree = w.tree → ∃ w₂,
      (p.convertNested convert chain options.convertNested nested).run.run w₁ =
        (.ok (outcomes, failures), w₂) ∧ w₂.tree = t' ∧ Starts names w₁ w₂) :
    ∃ s w', ∃ c : Course p time convert chain name f options w w' s,
      c.parts = bareParts text source root nested failures ∧
      w'.tree = ((bareParts text source root nested failures).output p.library name
        (p.layout.relative f.template)).writeTo p.layout name time t' ∧
      Starts (name :: names) w w' := by
  obtain ⟨w₂, hgathers, htree, hstarts⟩ := h.gather convert chain options hnested hconvert
  obtain ⟨s, w', c, hparts, htree', hstarts'⟩ :=
    course_of_gather time hgathers (by rw [haliases]; rfl)
  rw [htree] at htree'
  refine ⟨s, w', c, hparts, htree', ?_⟩
  simpa using hstarts.trans hstarts'

theorem convertNested_nil (hconvert : w.tree = t) :
    ∃ w₂, (p.convertNested convert chain options.convertNested []).run.run w = (.ok ([], []), w₂) ∧
      w₂.tree = t ∧ Starts [] w w₂ :=
  ⟨w, rfl, hconvert, [], (List.append_nil _).symm, rfl⟩

theorem convertOne_of_absent {n : NestedComponent} {path : String} (hpath : n.resolvedPath = some path)
    (habsent : t.has (p.layout.template n.name) = false)
    (hconvert : (convert chain (nestedFiles p t n path)
      { outputName := some n.name }).run.run w = (.ok s, w')) (htree : w.tree = t) :
    (p.convertOne convert chain n).run.run w = (.ok (.converted n.name, []), w') := by
  subst htree
  refine run_bind_ok.2 ⟨.converted n.name, w', ?_, rfl⟩
  rw [ensureNested, hpath]
  refine run_bind_ok.2 ⟨w.tree, w, rfl, ?_⟩
  simp only [habsent, Bool.false_eq_true, if_false]
  refine (run_attempt _ _ _).trans ?_
  rw [hconvert]

theorem convertOne_of_there {n : NestedComponent} {path : String} (hpath : n.resolvedPath = some path)
    (hthere : w.tree.has (p.layout.template n.name) = true) :
    (p.convertOne convert chain n).run.run w = (.ok (.existing n.name, []), w) := by
  refine run_bind_ok.2 ⟨.existing n.name, w, ?_, rfl⟩
  rw [ensureNested, hpath]
  refine run_bind_ok.2 ⟨w.tree, w, rfl, ?_⟩
  rw [if_pos hthere]
  rfl

/-- A component alone in the markup of another comes to what converting it comes to. -/
theorem convertNested_singleton {n : NestedComponent} {outcome : NestedOutcome}
    (hone : ∀ w₁, w₁.tree = t → ∃ w₂, (p.convertOne convert chain n).run.run w₁ =
      (.ok (outcome, []), w₂) ∧ w₂.tree = t' ∧ Starts names w₁ w₂) (htree : w.tree = t) :
    ∃ w₂, (p.convertNested convert chain true [n]).run.run w = (.ok ([outcome], []), w₂) ∧
      w₂.tree = t' ∧ Starts names w w₂ := by
  obtain ⟨w₂, hrun, htree₂, hstarts⟩ := hone { w with trace :=
    w.trace ++ [.step "🧩 Detecting nested components..."] ++
      [.ok (n.className ++ " -> <" ++ n.tagName ++ ">")] } htree
  exact ⟨w₂, run_bind_ok.2 ⟨(), _, rfl, run_bind_ok.2 ⟨(), _, rfl, run_bind_ok.2 ⟨_, w₂, hrun,
    run_bind_ok.2 ⟨([], []), w₂, rfl, rfl⟩⟩⟩⟩, htree₂,
    (Starts.trans ⟨_, List.append_assoc _ _ _, by rfl⟩ hstarts : Starts ([] ++ names) w w₂)⟩

theorem exists_depthBound (t : FileTree) : ∃ depth, depthBound t = depth + 2 := by
  have hle : ∀ (files : List (String × String)) (n : Nat),
      n ≤ files.foldl (fun n f => n + f.2.length) n := by
    intro files
    induction files with
    | nil => exact fun n => Nat.le_refl n
    | cons f rest ih => exact fun n => Nat.le_trans (Nat.le_add_right _ _) (ih _)
  exact ⟨depthBound t - 2, (Nat.sub_add_cancel (hle t.files 2)).symm⟩

theorem locate_of_has (p : Project) (component : String)
    (htemplate : w.tree.has (Path.join (Path.join p.layout.components component)
      p.config.templateFile) = true)
    (hdefaults : w.tree.has (Path.join (Path.join p.layout.components component)
      p.config.defaultsFile) = false) :
    (p.locate component).run.run w = (.ok ⟨component, component,
      Path.join (Path.join p.layout.components component) p.config.templateFile, none⟩, w) := by
  rw [locate, run_bind, run_files]
  simp only [htemplate, hdefaults]
  rfl

/-- A component with one other in it, which has none: first the other one is made, then the component
itself. -/
theorem convert_with_one (time : String) {n : NestedComponent} {path text' : String}
    {source' : Source} {root' : Reviewed Markup.Element} {f' : SourceFiles}
    (hlocate : (p.locate component).run.run w = (.ok f, w)) (hcomponent : f.component = component)
    (hbare : IsBare p w.tree component f text source root)
    (hnested : NestedComponent.detect w.tree source.imports source.renderBody f.template = [n])
    (hpath : n.resolvedPath = some path) (hname : n.name ≠ component)
    (habsent : w.tree.has (p.layout.template n.name) = false)
    (hfiles : nestedFiles p w.tree n path = f')
    (hbare' : IsBare p w.tree n.name f' text' source' root')
    (hnested' : NestedComponent.detect w.tree source'.imports source'.renderBody f'.template = []) :
    ∃ s w', ∃ out out' : Output, (p.convert time component {}).run.run w = (.ok s, w') ∧
      w'.tree = out.writeTo p.layout component time (out'.writeTo p.layout n.name time w.tree) ∧
      Starts [component, n.name] w w' := by
  subst hcomponent
  obtain ⟨depth, hdepth⟩ := exists_depthBound w.tree
  have hinner : ∀ w₁, w₁.tree = w.tree → ∃ w₂,
      (p.convertOne (p.convertWithin time (depth + 1)) [f.component] n).run.run w₁ =
        (.ok (.converted n.name, []), w₂) ∧
      w₂.tree = ((bareParts text' source' root' [] []).output p.library n.name
        (p.layout.relative f'.template)).writeTo p.layout n.name time w.tree ∧
      Starts [n.name] w₁ w₂ := by
    intro w₁ htree
    rw [← htree] at hbare' hnested'
    obtain ⟨s, w₂, c, -, htree', hstarts⟩ := hbare'.course time (p.convertWithin time depth)
      [f.component, n.name] { outputName := some n.name } rfl hnested'
      fun w₂ htree₂ => convertNested_nil (htree₂.trans htree)
    refine ⟨w₂, convertOne_of_absent (s := s) hpath habsent ?_ htree, htree', hstarts⟩
    rw [hfiles, convertWithin, convertStep]
    simp only [Option.getD_some, List.contains_iff_mem, List.mem_singleton, hname, if_false]
    exact c.run
  obtain ⟨s, w', c, -, htree, hstarts⟩ := hbare.course time (p.convertWithin time (depth + 1))
    [f.component] {} rfl hnested fun w₁ => convertNested_singleton hinner
  exact ⟨s, w', _, _, convert_of_course hlocate hdepth c, htree, hstarts⟩

/-! ### Conversions by what reading gives -/

/-- What is known of a component that nothing customizes, from what reading it gives. -/
def bareParts? (t : FileTree) (name : String) (f : SourceFiles) (text : String) :
    Except ParseError Source → Option Parts
  | .ok source =>
    match rootElement name source with
    | .ok root =>
      if source.renderBody.isEmpty then none
      else some (bareParts text source root
        (NestedComponent.detect t source.imports source.renderBody f.template) [])
    | .error _ => none
  | .error _ => none

theorem isBare_of_bareParts? (hread : t.read? f.template = some text) (hdefaults : f.defaults = none)
    (hcustom : (Customization.load p.layout.customizations f.component t).toOption.any
      (Option.all Customization.isVoid) = true)
    (h : bareParts? t name f text (Source.parse text none f.hint) = some x) :
    ∃ source root, IsBare p t name f text source root ∧
      x = bareParts text source root
        (NestedComponent.detect t source.imports source.renderBody f.template) [] := by
  generalize hparse : Source.parse text none f.hint = parsed at h
  unfold bareParts? at h
  split at h
  · rename_i source
    split at h
    · rename_i root hroot
      split at h
      · cases h
      · rename_i hbody
        rw [List.isEmpty_iff] at hbody
        exact ⟨source, root, ⟨hread, hdefaults, hparse, hbody, hcustom, hroot⟩,
          (Option.some.inj h).symm⟩
    · cases h
  · cases h

/-! ### Notes -/

def noteWorkspace (code : String) : Workspace :=
  { tree := { files := [("/p/rvo/components/note/src/template.tsx", code)] } }

def noteFiles : SourceFiles := ⟨"note", "note", "/p/rvo/components/note/src/template.tsx", none⟩

theorem read?_noteWorkspace (code path : String) :
    (noteWorkspace code).tree.read? path =
      if Path.normalize path = noteFiles.template then some code else none := by
  rw [noteWorkspace, FileTree.read?, noteFiles]
  split
  · simp_all
  · rename_i h
    simp [Ne.symm h]

theorem locate_note (code : String) :
    (standardProject.locate "note").run.run (noteWorkspace code) =
      (.ok noteFiles, noteWorkspace code) := by
  have htemplate : Path.join (Path.join standardProject.layout.components "note")
      standardProject.config.templateFile = noteFiles.template := by decide +kernel
  have hnormal : Path.normalize noteFiles.template = noteFiles.template := by decide +kernel
  have hdefaults : Path.normalize (Path.join (Path.join standardProject.layout.components "note")
      standardProject.config.defaultsFile) ≠ noteFiles.template := by decide +kernel
  refine (locate_of_has standardProject "note" ?_ ?_).trans (by rw [htemplate]; rfl)
  · rw [FileTree.has, read?_noteWorkspace, htemplate, if_pos hnormal]
    rfl
  · rw [FileTree.has, read?_noteWorkspace, if_neg hdefaults]
    rfl

theorem depthBound_noteWorkspace (code : String) :
    depthBound (noteWorkspace code).tree = code.length + 1 + 1 := by
  rw [noteWorkspace, depthBound, List.foldl_cons, List.foldl_nil]
  dsimp only
  omega

/-- What is known of a note without components of its own. -/
theorem course_of_bareParts? {code : String} {x : Parts}
    (h : bareParts? (noteWorkspace code).tree "note" noteFiles code
      (Source.parse code none noteFiles.hint) = some x) (hnested : x.nested = []) :
    ∃ s w', (standardProject.convert "" "note" {}).run.run (noteWorkspace code) = (.ok s, w') ∧
      ∃ c : Course standardProject "" (standardProject.convertWithin "" (code.length + 1)) ["note"]
        "note" noteFiles {} (noteWorkspace code) w' s, c.parts = x := by
  have hread : (noteWorkspace code).tree.read? noteFiles.template = some code := by
    rw [read?_noteWorkspace, if_pos (by decide +kernel)]
  have hcustom : Customization.load standardProject.layout.customizations noteFiles.component
      (noteWorkspace code).tree = .ok none := by
    rw [Customization.load, read?_noteWorkspace, if_neg (by decide +kernel)]
  obtain ⟨source, root, hbare, rfl⟩ :=
    isBare_of_bareParts? (p := standardProject) hread rfl (by rw [hcustom]; rfl) h
  obtain ⟨s, w', c, hparts, -, -⟩ := hbare.course ""
    (standardProject.convertWithin "" (code.length + 1)) ["note"] {} rfl hnested
    fun w₁ htree => convertNested_nil htree
  refine ⟨s, w', convert_of_course (locate_note code) (depthBound_noteWorkspace code) c, c, ?_⟩
  rw [hparts]
  exact congrArg (bareParts code source root · []) hnested.symm

/-- A test of what is known of a note. The characters of the code are given apart: taken from the bytes
of a long text they are slow to come by. -/
theorem course_of_note (test : Parts → Bool) {code : String} {w : Workspace} {cs : List Char}
    (hw : w = noteWorkspace code) (hcode : code.toList = cs)
    (h : ∀ text : String, text.toList = cs →
      (bareParts? (noteWorkspace code).tree "note" noteFiles code
        (Source.parse text none noteFiles.hint)).any (fun x => x.nested.isEmpty && test x) = true) :
    ∃ s w', (standardProject.convert "" "note" {}).run.run w = (.ok s, w') ∧
      ∃ c : Course standardProject "" (standardProject.convertWithin "" (code.length + 1)) ["note"]
        "note" noteFiles {} w w' s, test c.parts = true := by
  subst hw
  obtain ⟨x, hx, htest⟩ := (Option.any_eq_true _ _).1 (h code hcode)
  rw [Bool.and_eq_true, List.isEmpty_iff] at htest
  obtain ⟨s, w', hconvert, c, hc⟩ := course_of_bareParts? hx htest.1
  exact ⟨s, w', hconvert, c, hc ▸ htest.2⟩

end Project

end JsxToJinja
