import Mathlib.Data.Finset.Card
import JsxToJinja.Proofs.Project.Detours
import JsxToJinja.Proofs.Project.GeneratedFiles
import JsxToJinja.Proofs.Project.NestedTags

/-! How conversions call one another. A call whose name is under way is refused, so the calls end as
long as no file that they write is read as code. -/
namespace JsxToJinja
open JsxToJinja.Text

/-! ### Names and places that imports lead to -/

namespace Import

def componentNames (text : String) : List String :=
  (parse (Code.stripComments text.toList)).flatMap fun i =>
    i.localNames.map fun l => kebabCase ((i.importedName? l).getD l)

/-- Places where the code behind an import may lie. -/
def places (path importer : String) : List String :=
  let base := Path.join ((Path.parent? importer).getD "") path
  [base, base ++ ".tsx", base ++ ".ts", Path.join base "index.tsx"].map Path.normalize

/-- An import is resolved to one of its places, where a file is. -/
theorem mem_places_of_resolveImport {tree : FileTree} {path importer found : String}
    (h : NestedComponent.resolveImport tree path importer = .ok found) :
    found ∈ places path importer ∧ tree.has found := by
  rw [NestedComponent.resolveImport] at h
  split at h
  · rename_i place hplace
    cases h
    obtain ⟨candidate, hmem, rfl⟩ := List.mem_map.1 (List.mem_of_find?_eq_some hplace)
    have hthere := List.find?_some hplace
    rw [Path.normalize_normalize]
    refine ⟨List.mem_map.2 ⟨candidate, ?_, rfl⟩, hthere⟩
    split at hmem
    · rw [List.mem_singleton.1 hmem]
      exact List.mem_cons_self
    · simp only [List.mem_cons, List.not_mem_nil, or_false] at hmem ⊢
      rcases hmem with h | h | h | h
      · exact .inr (.inl h)
      · exact .inr (.inr (.inl h))
      · exact .inr (.inr (.inr h))
      · exact .inl h
  · cases h

end Import

namespace FileTree

def componentNames (t : FileTree) : List String :=
  t.files.flatMap fun f => Import.componentNames f.2

theorem mem_componentNames {t : FileTree} {path text n : String} (hread : t.read? path = some text)
    (hn : n ∈ Import.componentNames text) : n ∈ t.componentNames := by
  obtain ⟨f, hfind, rfl⟩ := Option.map_eq_some_iff.1 hread
  exact List.mem_flatMap.2 ⟨f, List.mem_of_find?_eq_some hfind, hn⟩

theorem mem_paths_of_has {t : FileTree} {path : String} (h : t.has path) :
    Path.normalize path ∈ t.paths := by
  rw [has, Option.isSome_iff_exists] at h
  obtain ⟨text, hread⟩ := h
  obtain ⟨f, hfind, -⟩ := Option.map_eq_some_iff.1 hread
  have hkey := List.find?_some hfind
  exact List.mem_map.2 ⟨f, List.mem_of_find?_eq_some hfind, beq_iff_eq.1 hkey⟩

def importPlaces (t : FileTree) (importer : String) : List String :=
  ((t.read? importer).map fun text =>
    ((Import.parse (Code.stripComments text.toList)).filter fun i => i.isRelative && !i.typeOnly).flatMap
      fun i => Import.places i.source importer).getD []

theorem normalize_of_mem_importPlaces {t : FileTree} {importer place : String}
    (h : place ∈ t.importPlaces importer) : Path.normalize place = place := by
  rw [importPlaces] at h
  cases hread : t.read? importer with
  | none =>
    rw [hread] at h
    cases h
  | some text =>
    rw [hread] at h
    obtain ⟨i, -, hplace⟩ := List.mem_flatMap.1 h
    obtain ⟨candidate, -, rfl⟩ := List.mem_map.1 hplace
    exact Path.normalize_normalize candidate

end FileTree

theorem Source.imports_of_parse {text : String} {defaults hint : Option String} {s : Source}
    (h : Source.parse text defaults hint = .ok s) :
    s.imports = Import.parse (Code.stripComments text.toList) := by
  rw [Source.parse] at h
  cases hdecl : declaration? (Markup.mask (Code.stripComments text.toList)) hint with
  | none =>
    rw [hdecl] at h
    cases h
  | some d =>
    rw [hdecl] at h
    cases hclose : Code.balancedEnd? (Markup.mask (Code.stripComments text.toList)) d.paramsOpen with
    | none =>
      simp only [hclose, pure_bind] at h
      cases h
    | some i =>
      simp only [hclose, pure_bind] at h
      cases h
      rfl

/-- What is detected has a name that an import gives, and its code lies where that import leads. -/
theorem NestedComponent.of_mem_detect {t tree : FileTree} {importer text : String}
    {imports : List Import} {markup : List Char}
    (himports : imports = Import.parse (Code.stripComments text.toList))
    (hread : tree.read? importer = some text) {n : NestedComponent}
    (hn : n ∈ detect t imports markup importer) :
    n.name ∈ Import.componentNames text ∧ ∀ path, n.resolvedPath = some path →
      path ∈ tree.importPlaces importer ∧ t.has path := by
  have hrelative : detect t imports markup importer =
      detect t (imports.filter fun i => i.isRelative && !i.typeOnly) markup importer := by
    rw [detect, detect, List.filter_filter]
    simp only [Bool.and_self]
  rw [hrelative] at hn
  have himported := isImported_of_mem_detect n hn
  obtain ⟨i, hi, hlocal, hclass, hdescribed⟩ := himported.described
  refine ⟨?_, fun path hpath => ?_⟩
  · rw [himported.tagName_eq.2, hclass]
    exact List.mem_flatMap.2
      ⟨i, himports ▸ (List.mem_filter.1 hi).1, List.mem_map.2 ⟨n.localName, hlocal, rfl⟩⟩
  · have hresolved : (resolveImport t i.source importer).toOption = some path := by
      rw [← hpath, hdescribed]
      rfl
    cases hresult : resolveImport t i.source importer with
    | error e =>
      rw [hresult] at hresolved
      cases hresolved
    | ok found =>
      rw [hresult] at hresolved
      cases hresolved
      obtain ⟨hplace, hthere⟩ := Import.mem_places_of_resolveImport hresult
      refine ⟨?_, hthere⟩
      rw [FileTree.importPlaces, hread]
      exact List.mem_flatMap.2 ⟨i, himports ▸ hi, hplace⟩

/-! ### Steps that do the same -/

namespace Conversion

variable {α β : Type} {I : FileTree → Prop} {x y : Conversion α} {f g : α → Conversion β}

/-- From files with the property, two steps do the same and come to files with the property. -/
def Alike (I : FileTree → Prop) (x y : Conversion α) : Prop :=
  ∀ w, I w.tree → x.run.run w = y.run.run w ∧ I (x.run.run w).2.tree

theorem IsQuiet.alike (hx : IsQuiet x) : Alike I x x := fun w hw => ⟨rfl, by rwa [(hx w).tree]⟩

theorem alike_emit (events : List Event) : Alike I (emit events) (emit events) := fun _ hw => ⟨rfl, hw⟩

theorem alike_write {path contents : String} (h : ∀ t, I t → I (t.write path contents)) :
    Alike I (write path contents) (write path contents) := fun w hw => ⟨rfl, h w.tree hw⟩

/-- Two steps that go alike go alike with what follows them. -/
theorem Alike.bind (hx : Alike I x y) (hf : ∀ a, Alike I (f a) (g a)) :
    Alike I (x >>= f) (y >>= g) := by
  intro w hw
  obtain ⟨hsame, hafter⟩ := hx w hw
  rw [run_bind, run_bind, ← hsame]
  split
  · rename_i a w₁ hrun
    rw [hrun] at hafter
    exact hf a w₁ hafter
  · rename_i hrun
    rw [hrun] at hafter
    exact ⟨rfl, hafter⟩

/-- What a quiet step found may be used for what comes behind it. -/
theorem IsQuiet.alike_bind (hx : IsQuiet x)
    (hf : ∀ w a w', I w.tree → x.run.run w = (.ok a, w') → Alike I (f a) (g a)) :
    Alike I (x >>= f) (x >>= g) := by
  intro w hw
  have hafter := (hx w).tree
  rw [run_bind, run_bind]
  split
  · rename_i a w₁ hrun
    rw [hrun] at hafter
    exact hf w a w₁ hw hrun w₁ (by rwa [hafter])
  · rename_i hrun
    rw [hrun] at hafter
    exact ⟨rfl, by rwa [hafter]⟩

theorem alike_registerAliases {layout : Layout} (target : String) (aliases : List String)
    (h : ∀ t contents, I t → I (t.write layout.registry contents)) :
    Alike I (registerAliases layout target aliases) (registerAliases layout target aliases) := by
  rw [registerAliases]
  split
  · exact (isQuiet_pure _).alike
  · refine (alike_emit _).bind fun _ => isQuiet_files.alike.bind fun tree => ?_
    split
    · exact (isQuiet_throw _).alike
    · exact (isQuiet_registerAll _ _ _).alike.bind fun _ =>
        (alike_write fun t => h t _).bind fun _ => alike_emit _

theorem Alike.attempt {step step' : Conversion Summary} (h : Alike I step step') (name : String) :
    Alike I (Project.attempt name step) (Project.attempt name step') := by
  intro w hw
  obtain ⟨hsame, hafter⟩ := h w hw
  rw [Project.run_attempt, Project.run_attempt, ← hsame]
  split <;> rename_i hrun <;> rw [hrun] at hafter <;> exact ⟨rfl, hafter⟩

end Conversion

/-! ### Calls of one run -/

namespace Project
open Conversion

variable {p : Project} {time : String} {I : FileTree → Prop}

def writtenFor (p : Project) (name : String) : List String :=
  [p.layout.template name, p.layout.definition name, p.layout.reviewDocument name, p.layout.registry]

theorem alike_finish (name : String) (aliases : List String) (nested : List NestedOutcome)
    (out : Output) (h : ∀ path ∈ p.writtenFor name, ∀ t contents, I t → I (t.write path contents)) :
    Alike I (p.finish time name aliases nested out) (p.finish time name aliases nested out) := by
  have hwrite {path : String} (hpath : path ∈ p.writtenFor name) (title contents : String) :
      Alike I (writeOutput p.layout title path contents) (writeOutput p.layout title path contents) :=
    (alike_emit _).bind fun _ => (alike_write fun t => h path hpath t _).bind fun _ => alike_emit _
  exact (alike_write fun t => h _ (by simp [writtenFor]) t _).bind fun _ =>
    (alike_emit _).bind fun _ => (hwrite (by simp [writtenFor]) _ _).bind fun _ =>
      (hwrite (by simp [writtenFor]) _ _).bind fun _ =>
        (alike_registerAliases _ _ (h _ (by simp [writtenFor]))).bind fun _ =>
          (alike_emit _).bind fun _ => (isQuiet_pure _).alike

section

variable {c c' : Converter} {chain : List String}

/-- Two converters do the same for a nested component, wherever its code lies. -/
def CallAlike (p : Project) (I : FileTree → Prop) (chain : List String) (c c' : Converter)
    (n : NestedComponent) : Prop :=
  ∀ path t, n.resolvedPath = some path → I t →
    Alike I (c chain (p.nestedFiles t n path) { outputName := some n.name })
      (c' chain (p.nestedFiles t n path) { outputName := some n.name })

theorem alike_ensureNested {n : NestedComponent} (h : p.CallAlike I chain c c' n) :
    Alike I (p.ensureNested c chain n) (p.ensureNested c' chain n) := by
  rw [ensureNested, ensureNested]
  split
  · exact (isQuiet_pure _).alike
  · rename_i path hpath
    refine isQuiet_files.alike_bind fun w tree w' hw hrun => ?_
    cases hrun
    split
    · exact (isQuiet_pure _).alike
    · exact (h path w.tree hpath hw).attempt n.name

theorem alike_convertOne {n : NestedComponent} (h : p.CallAlike I chain c c' n) :
    Alike I (p.convertOne c chain n) (p.convertOne c' chain n) := by
  refine (alike_ensureNested h).bind fun outcome => ?_
  split
  · exact (alike_emit _).bind fun _ => (isQuiet_pure _).alike
  · exact (isQuiet_pure _).alike

theorem alike_convertEach {nested : List NestedComponent}
    (h : ∀ n ∈ nested, p.CallAlike I chain c c' n) (wanted : Bool) :
    Alike I (p.convertEach c chain wanted nested) (p.convertEach c' chain wanted nested) := by
  induction nested with
  | nil => exact (isQuiet_pure _).alike
  | cons n rest ih =>
    obtain ⟨hfirst, hrest⟩ := List.forall_mem_cons.1 h
    refine (alike_emit _).bind fun _ => ?_
    split
    · exact (alike_convertOne hfirst).bind fun _ => (ih hrest).bind fun _ => (isQuiet_pure _).alike
    · exact ih hrest

theorem alike_convertNested {nested : List NestedComponent}
    (h : ∀ n ∈ nested, p.CallAlike I chain c c' n) (wanted : Bool) :
    Alike I (p.convertNested c chain wanted nested) (p.convertNested c' chain wanted nested) := by
  rw [convertNested, convertNested]
  split
  · exact (alike_emit _).bind fun _ => alike_convertEach h wanted
  · exact alike_convertEach h wanted

theorem parse_of_run {text : String} {defaults hint : Option String} {source : Source}
    {w w' : Workspace}
    (h : (ofExcept ((Source.parse text defaults hint).mapError .parse) : Conversion Source).run.run w =
      (.ok source, w')) : Source.parse text defaults hint = .ok source := by
  have hok := (ofExcept_ok h).1
  cases hparse : Source.parse text defaults hint with
  | ok parsed =>
    rw [hparse] at hok
    cases hok
    rfl
  | error e =>
    rw [hparse] at hok
    cases hok

/-- What is read is the file as it is, with the imports that it has. -/
theorem readSource_ok {name text : String} {f : SourceFiles} {source : Source} {w w' : Workspace}
    (h : (p.readSource name f).run.run w = (.ok (text, source), w')) :
    w.tree.read? f.template = some text ∧
      source.imports = Import.parse (Code.stripComments text.toList) := by
  obtain ⟨_, w₁, hemit, h⟩ := run_bind_ok.1 h
  cases hemit
  obtain ⟨read, w₂, hread, h⟩ := run_bind_ok.1 h
  have hfile : w.tree.read? f.template = some read := by
    obtain ⟨tree, w₃, hfiles, hread⟩ := run_bind_ok.1 hread
    cases hfiles
    split at hread
    · rename_i found hfound
      cases hread
      exact hfound
    · cases hread
  extract_lets parse at h
  have hsource {defaults : Option String} {w₃ : Workspace}
      (h : (parse defaults).run.run w₃ = (.ok (text, source), w')) :
      read = text ∧ source.imports = Import.parse (Code.stripComments read.toList) := by
    obtain ⟨parsed, w₄, hparse, h⟩ := run_bind_ok.1 h
    have himports := Source.imports_of_parse (parse_of_run hparse)
    split at h
    · obtain ⟨_, w₅, hthrow, -⟩ := run_bind_ok.1 h
      cases hthrow
    · obtain ⟨_, w₅, -, h⟩ := run_bind_ok.1 h
      cases h
      exact ⟨rfl, himports⟩
  have hboth : read = text ∧ source.imports = Import.parse (Code.stripComments read.toList) := by
    split at h
    · obtain ⟨_, w₃, -, h⟩ := run_bind_ok.1 h
      obtain ⟨_, w₄, -, h⟩ := run_bind_ok.1 h
      exact hsource h
    · obtain ⟨_, w₃, -, h⟩ := run_bind_ok.1 h
      exact hsource h
  obtain ⟨rfl, himports⟩ := hboth
  exact ⟨hfile, himports⟩

/-- A run depends on the calls for the components that its code imports, all under one chain. -/
theorem alike_run {name : String} {f : SourceFiles} (options : ConvertOptions)
    (hwrite : ∀ path ∈ p.writtenFor name, ∀ t contents, I t → I (t.write path contents))
    (hcalls : ∀ t text t' imports markup, I t → t.read? f.template = some text → I t' →
      imports = Import.parse (Code.stripComments text.toList) →
        ∀ n ∈ NestedComponent.detect t' imports markup f.template, p.CallAlike I chain c c' n) :
    Alike I (p.run time c chain name f options) (p.run time c' chain name f options) := by
  refine (alike_emit _).bind fun _ => (isQuiet_readSource p name f).alike_bind ?_
  rintro w ⟨text, source⟩ w₁ hw hread
  obtain ⟨hfile, himports⟩ := readSource_ok hread
  refine (isQuiet_customize p _ _).alike.bind fun _ => (isQuiet_ofExcept _).alike.bind fun _ => ?_
  refine isQuiet_files.alike_bind fun w₂ tree w₃ hw₂ htree => ?_
  cases htree
  exact (alike_convertNested (hcalls _ text _ _ _ hw hfile hw₂ himports) _).bind fun _ =>
    (alike_emit _).bind fun _ => alike_finish _ _ _ _ hwrite

/-- A run calls for other components under its own chain alone. -/
theorem run_congr (h : ∀ f options, c chain f options = c' chain f options) (name : String)
    (f : SourceFiles) (options : ConvertOptions) :
    p.run time c chain name f options = p.run time c' chain name f options := by
  have halike : Alike (fun _ => True) (p.run time c chain name f options)
      (p.run time c' chain name f options) := by
    refine alike_run options (fun _ _ _ _ _ => trivial) ?_
    intro t text t' imports markup _ _ _ _ n _ path t'' _ _ w _
    exact ⟨by rw [h], trivial⟩
  exact funext fun w => (halike w trivial).1

end

/-! ### Calls one inside the other -/

/-- Conversions down to a depth, and `below` for the calls that lie deeper. -/
def callsOver (p : Project) (time : String) (below : Converter) : Nat → Converter
  | 0 => below
  | depth + 1 => convertStep p time (callsOver p time below depth)

theorem convertWithin_eq_callsOver (p : Project) (time : String) (depth : Nat) :
    p.convertWithin time depth = p.callsOver time (p.convertWithin time 0) depth := by
  induction depth with
  | zero => rfl
  | succ depth ih => exact congrArg (p.convertStep time) ih

/-- A call whose name is under way is refused with the names on the way, and no file is touched. -/
theorem convertStep_refuses {convert : Converter} {chain : List String} {f : SourceFiles}
    {options : ConvertOptions} (h : options.outputName.getD f.component ∈ chain) (w : Workspace) :
    (p.convertStep time convert chain f options).run.run w =
      (.error (.cycle (chain ++ [options.outputName.getD f.component])), w) := by
  rw [convertStep, if_pos (List.contains_iff_mem.2 h)]
  rfl

/-- Calls so many levels down are made with so many more names under way, all of them different and
those from the start in front. -/
theorem callsOver_congr {below below' : Converter} {depth : Nat} {chain : List String}
    (hchain : chain.Nodup)
    (h : ∀ chain', chain <+: chain' → chain'.Nodup → chain'.length = chain.length + depth →
      below chain' = below' chain') (f : SourceFiles) (options : ConvertOptions) :
    p.callsOver time below depth chain f options = p.callsOver time below' depth chain f options := by
  induction depth generalizing chain f options with
  | zero => exact congrFun (congrFun (h chain List.prefix_rfl hchain rfl) f) options
  | succ depth ih =>
    rw [callsOver, callsOver, convertStep, convertStep]
    split
    · rfl
    · rename_i hnew
      have hnodup : (chain ++ [options.outputName.getD f.component]).Nodup := by
        rw [List.contains_iff_mem] at hnew
        rw [← List.concat_eq_append]
        exact hchain.concat hnew
      have hbelow : ∀ chain', chain ++ [options.outputName.getD f.component] <+: chain' →
          chain'.Nodup →
          chain'.length = (chain ++ [options.outputName.getD f.component]).length + depth →
          below chain' = below' chain' := by
        intro chain' hstart hdiffer hlength
        refine h chain' ((List.prefix_append _ _).trans hstart) hdiffer ?_
        rw [hlength, List.length_append, List.length_singleton]
        omega
      exact run_congr (fun f options => ih hnodup hbelow f options) _ f options

def convertOver (p : Project) (time : String) (below : Converter) (depth : Nat) (component : String)
    (options : ConvertOptions) : Conversion Summary := do
  let f ← locate p component
  callsOver p time below depth [] f options

/-- The calls of a conversion end: what calls below some depth would do never matters. -/
def Ends (p : Project) (time component : String) (options : ConvertOptions) (w : Workspace) : Prop :=
  ∃ depth, ∀ below below' : Converter,
    (p.convertOver time below depth component options).run.run w =
      (p.convertOver time below' depth component options).run.run w

/-! ### Code apart from what is made -/

def written (p : Project) (names : List String) : List String :=
  names.flatMap fun n => (p.writtenFor n).map Path.normalize

def codeOf (p : Project) (component : String) : String :=
  Path.join (Path.join p.layout.components component) p.config.templateFile

/-- The places of code: that of the component and those that imports may lead to. -/
def codePlaces (p : Project) (t : FileTree) (component : String) : List String :=
  Path.normalize (p.codeOf component) ::
    (p.codeOf component :: t.paths).flatMap t.importPlaces

/-- No import leads to a place where a conversion puts what it makes. -/
def CodeApart (p : Project) (t : FileTree) (component name : String) : Prop :=
  ∀ place ∈ p.codePlaces t component, place ∉ p.written (name :: t.componentNames)

instance (p : Project) (t : FileTree) (component name : String) :
    Decidable (p.CodeApart t component name) :=
  inferInstanceAs (Decidable (∀ place ∈ p.codePlaces t component,
    place ∉ p.written (name :: t.componentNames)))

section

variable {start : FileTree} {component name : String}

/-- Files are as at the start but for those that the conversions make. -/
def SameCode (p : Project) (start : FileTree) (name : String) (t : FileTree) : Prop :=
  ∀ path, Path.normalize path ∉ p.written (name :: start.componentNames) →
    t.read? path = start.read? path

/-- Files written for a name leave the code of the components as it was. -/
theorem SameCode.write {n : String} (hn : n ∈ name :: start.componentNames) {path : String}
    (hpath : path ∈ p.writtenFor n) (t : FileTree) (contents : String)
    (h : SameCode p start name t) : SameCode p start name (t.write path contents) := by
  intro other hother
  have hne : Path.normalize other ≠ Path.normalize path := fun heq =>
    hother (List.mem_flatMap.2 ⟨n, hn, heq ▸ List.mem_map.2 ⟨path, hpath, rfl⟩⟩)
  rw [FileTree.read?_write_of_ne t contents hne]
  exact h other hother

def unseen (names chain : List String) : Nat := (names.toFinset \ chain.toFinset).card

theorem unseen_append_lt {names chain : List String} {n : String} (hn : n ∈ names)
    (hnew : n ∉ chain) : unseen names (chain ++ [n]) < unseen names chain := by
  refine Finset.card_lt_card (Finset.ssubset_iff_of_subset ?_ |>.2 ⟨n, ?_, ?_⟩)
  · intro m hm
    simp only [Finset.mem_sdiff, List.mem_toFinset, List.mem_append, not_or] at hm ⊢
    exact ⟨hm.1, hm.2.1⟩
  · simp [hn, hnew]
  · simp

/-- From the files of the start, calls lie no deeper than there are names. -/
theorem alike_callsOver (h : p.CodeApart start component name) (below below' : Converter)
    {depth : Nat} {chain : List String} {f : SourceFiles} {options : ConvertOptions}
    (hname : options.outputName.getD f.component ∈ name :: start.componentNames)
    (hplace : Path.normalize f.template ∈ p.codePlaces start component)
    (hcode : f.template ∈ p.codeOf component :: start.paths)
    (hdepth : unseen (name :: start.componentNames) chain < depth) :
    Alike (SameCode p start name) (p.callsOver time below depth chain f options)
      (p.callsOver time below' depth chain f options) := by
  induction depth generalizing chain f options with
  | zero => omega
  | succ depth ih =>
    rw [callsOver, callsOver, convertStep, convertStep]
    split
    · exact (isQuiet_throw _).alike
    · rename_i hnew
      rw [List.contains_iff_mem] at hnew
      refine alike_run options (fun path hpath t contents => SameCode.write hname hpath t contents) ?_
      intro t text t' imports markup ht hread ht' himports n hn path t'' hresolved ht''
      rw [ht _ (h _ hplace)] at hread
      obtain ⟨hn, hpath⟩ := NestedComponent.of_mem_detect himports hread hn
      obtain ⟨himported, hthere⟩ := hpath path hresolved
      have hnormal : Path.normalize path = path := FileTree.normalize_of_mem_importPlaces himported
      have hmem : path ∈ p.codePlaces start component :=
        List.mem_cons_of_mem _ (List.mem_flatMap.2 ⟨f.template, hcode, himported⟩)
      have hstart : start.has path := by
        rwa [FileTree.has, ht' path (hnormal.symm ▸ h path hmem)] at hthere
      refine ih ?_ ?_ ?_ ?_
      · exact List.mem_cons_of_mem _ (FileTree.mem_componentNames hread hn)
      · exact hnormal.symm ▸ hmem
      · exact List.mem_cons_of_mem _ (hnormal ▸ FileTree.mem_paths_of_has hstart)
      · have hless := unseen_append_lt hname hnew
        omega

/-- A conversion ends when no import leads to a place where a conversion puts what it makes. -/
theorem ends_of_codeApart {options : ConvertOptions} {w : Workspace}
    (h : p.CodeApart w.tree component (options.outputName.getD component)) :
    p.Ends time component options w := by
  refine ⟨unseen (options.outputName.getD component :: w.tree.componentNames) [] + 1,
    fun below below' => ?_⟩
  rw [convertOver, convertOver, run_bind, run_bind]
  split
  · rename_i f w' hlocate
    cases locate_ok hlocate
    have hcomponent : f.component = component := component_of_locate hlocate
    have htemplate : f.template = p.codeOf component := template_of_locate hlocate
    refine (alike_callsOver h below below' ?_ ?_ ?_ (Nat.lt_succ_self _) w fun _ _ => rfl).1
    · rw [hcomponent]
      exact List.mem_cons_self
    · rw [htemplate]
      exact List.mem_cons_self
    · rw [htemplate]
      exact List.mem_cons_self
  · rfl

end

def mirrorFiles : FileTree :=
  { files := [("/p/rvo/components/a/src/template.tsx", "import A from './template'")] }

-- A component that imports itself: the conversion ends all the same.
example : standardProject.CodeApart mirrorFiles "a" "a" := by decide +kernel

end Project

end JsxToJinja
