import JsxToJinja.CommandLine.Run
import JsxToJinja.Proofs.Project.Course
import JsxToJinja.Proofs.Project.Places

/-! The way back from the path that a definition notes to the component that it was made from. -/
namespace JsxToJinja

namespace Text

/-- The first occurrence of a character is where a text is cut once. -/
theorem splitOnce?_char_eq_some {o : Char} {t a b : List Char} :
    splitOnce? [o] t = some (a, b) ↔ t = a ++ o :: b ∧ o ∉ a := by
  have hcut {a b : List Char} (h : o ∉ a) : splitOnce? [o] (a ++ o :: b) = some (a, b) := by
    simp [splitOnce?, find?_of_notMem h]
  constructor
  · intro h
    by_cases ho : o ∈ t
    · obtain ⟨a', b', rfl, ha'⟩ := List.eq_append_cons_of_mem ho
      rw [hcut ha'] at h
      cases h
      exact ⟨rfl, ha'⟩
    · have hnone : find? [o] t = none := by simpa [find?] using find?_plain ho [] []
      rw [splitOnce?, hnone] at h
      cases h
  · rintro ⟨rfl, ha⟩
    exact hcut ha

theorem dropHead?_eq_some {head t rest : List Char} :
    dropHead? head t = some rest ↔ t = head ++ rest := by
  refine ⟨eq_of_dropHead?, ?_⟩
  rintro rfl
  rw [dropHead?, if_pos (startsWith_append_self head rest), List.drop_left]

/-- A tail without a character lies behind the last one of them. -/
theorem endsWith_append_char {o : Char} {tail : List Char} (h : o ∉ tail) (w t : List Char) :
    endsWith (w ++ o :: t) tail = endsWith t tail := by
  rw [Bool.eq_iff_iff, endsWith, endsWith, List.isSuffixOf_iff_suffix, List.isSuffixOf_iff_suffix]
  refine ⟨fun hs => ?_, fun hs => hs.trans ⟨w ++ [o], by simp⟩⟩
  have ht : t <:+ w ++ o :: t := ⟨w ++ [o], by simp⟩
  by_cases hle : tail.length ≤ t.length
  · exact List.suffix_of_suffix_length_le hs ht hle
  · -- A longer tail would reach back to the character.
    have hmem : o :: t <:+ tail :=
      List.suffix_of_suffix_length_le ⟨w, rfl⟩ hs (by rw [List.length_cons]; omega)
    exact absurd (hmem.subset List.mem_cons_self) h

end Text

namespace Path
open JsxToJinja.Text

def namedPieces (path : String) : List String := (pieces path).filter (!isVoid ·)

theorem namedPieces_slash (a b : String) :
    namedPieces (a ++ "/" ++ b) = namedPieces a ++ namedPieces b := by
  rw [namedPieces, pieces_slash, List.filter_append]
  rfl

theorem namedPieces_trailing (a : String) : namedPieces (a ++ "/") = namedPieces a := by
  have h := namedPieces_slash a ""
  rwa [String.append_empty, show namedPieces "" = [] from rfl, List.append_nil] at h

theorem namedPieces_join (a : String) {b : String} (hb : isAbsolute b = false) :
    namedPieces (join a b) = namedPieces a ++ namedPieces b := by
  rw [join, hb, Bool.false_or]
  split
  · rename_i hempty
    rw [String.isEmpty_iff.1 hempty]
    rfl
  · split
    · rename_i hlast
      obtain ⟨r, hr⟩ := List.getLast?_eq_some_iff.1 (beq_iff_eq.1 hlast)
      obtain rfl : a = String.ofList r ++ "/" := by simp [← String.toList_inj, hr]
      rw [namedPieces_slash, namedPieces_trailing]
    · rw [namedPieces_slash]

theorem isAbsolute_join_of_isAbsolute {a b : String} (ha : isAbsolute a = true)
    (hb : isAbsolute b = false) : isAbsolute (join a b) = true := by
  have hne : a.isEmpty = false := by
    rw [← Bool.not_eq_true, String.isEmpty_iff]
    rintro rfl
    exact absurd ha (by decide)
  have hfront (rest : String) : isAbsolute (a ++ rest) = true := by
    rw [isAbsolute, beq_iff_eq] at ha ⊢
    rw [String.toList_append, List.head?_append, ha]
    rfl
  rw [join, hb, hne, Bool.or_false]
  split
  · contradiction
  · split
    · exact hfront b
    · rw [String.append_assoc]
      exact hfront _

theorem steps_of_isAbsolute {path : String} (h : isAbsolute path = true) :
    steps path = .root :: (namedPieces path).map stepOf := by
  rw [steps, if_pos h]
  rfl

theorem slash_notMem_of_mem_pieces {path piece : String} (h : piece ∈ pieces path) :
    '/' ∉ piece.toList := by
  obtain ⟨p, hp, rfl⟩ := List.mem_map.1 h
  rw [String.toList_ofList]
  exact notMem_of_mem_splitOn hp

theorem pieces_joinPieces {ps : List String} (hne : ps ≠ [])
    (h : ∀ piece ∈ ps, '/' ∉ piece.toList) : pieces (joinPieces ps) = ps := by
  have htext : (joinPieces ps).toList = ['/'].intercalate (ps.map String.toList) := by
    rw [joinPieces, String.toList_intercalate]
    rfl
  rw [pieces, htext, splitOn_intercalate (by simpa using hne) (by simpa using h), List.map_map]
  simp [Function.comp_def]

private theorem filter_dropWhile_isVoid (ps : List String) :
    (ps.dropWhile isVoid).filter (!isVoid ·) = ps.filter (!isVoid ·) := by
  induction ps with
  | nil => rfl
  | cons p ps ih => cases hp : isVoid p <;> simp [hp, ih]

/-- Without the pieces of the first steps, those of the other steps are left. -/
theorem filter_dropSteps (n : Nat) (ps : List String) :
    (dropSteps n ps).filter (!isVoid ·) = (ps.filter (!isVoid ·)).drop n := by
  induction ps generalizing n with
  | nil => cases n <;> rfl
  | cons p ps ih =>
    cases n with
    | zero => exact filter_dropWhile_isVoid (p :: ps)
    | succ n =>
      rw [dropSteps]
      cases hp : isVoid p <;> simp [hp, ih]

theorem dropSteps_subset (n : Nat) (ps : List String) : dropSteps n ps ⊆ ps := by
  induction ps generalizing n with
  | nil => cases n <;> simp [dropSteps]
  | cons p ps ih =>
    cases n with
    | zero => exact (List.dropWhile_sublist _).subset
    | succ n =>
      rw [dropSteps]
      split <;> exact fun x hx => List.mem_cons_of_mem _ (ih _ hx)

/-- What is left starts with a step. -/
theorem head?_dropSteps {n : Nat} {ps : List String} {p : String}
    (h : (dropSteps n ps).head? = some p) : isVoid p = false := by
  induction ps generalizing n with
  | nil => cases n <;> cases h
  | cons q ps ih =>
    cases n with
    | zero =>
      have hnot := List.head?_dropWhile_not isVoid (q :: ps)
      rw [dropSteps] at h
      rwa [h] at hnot
    | succ n =>
      rw [dropSteps] at h
      split at h <;> exact ih h

theorem isAbsolute_joinPieces {ps : List String} (hslash : ∀ piece ∈ ps, '/' ∉ piece.toList)
    (hhead : ∀ p, ps.head? = some p → isVoid p = false) : isAbsolute (joinPieces ps) = false := by
  rw [← Bool.not_eq_true]
  intro habs
  obtain ⟨t, ht⟩ := List.head?_eq_some_iff.1 (beq_iff_eq.1 habs)
  have htext : joinPieces ps = "" ++ "/" ++ String.ofList t := by
    simp [← String.toList_inj, ht]
  cases ps with
  | nil => exact absurd habs (by decide)
  | cons p ps =>
    have hpieces := pieces_joinPieces (List.cons_ne_nil p ps) hslash
    rw [htext, pieces_slash] at hpieces
    obtain rfl : "" = p := (List.cons.inj hpieces).1
    exact absurd (hhead "" rfl) (by decide)

theorem steps_joinPieces {ps : List String} (hslash : ∀ piece ∈ ps, '/' ∉ piece.toList)
    (hhead : ∀ p, ps.head? = some p → isVoid p = false) :
    steps (joinPieces ps) = (ps.filter (!isVoid ·)).map stepOf := by
  cases ps with
  | nil => rfl
  | cons p ps =>
    have hhere : ¬ (some p == some ".") = true := by
      rw [Option.some_beq_some, beq_iff_eq]
      rintro rfl
      exact absurd (hhead "." rfl) (by decide)
    rw [steps, pieces_joinPieces (List.cons_ne_nil p ps) hslash, isAbsolute_joinPieces hslash hhead,
      List.head?_cons, if_neg Bool.false_ne_true, if_neg hhere]
    rfl

/-- Below an absolute base the path leads on by what follows the steps of the base. -/
theorem relativeTo?_of_namedPieces {base path : String} {rest : List String}
    (hbase : isAbsolute base = true) (hpath : isAbsolute path = true)
    (h : namedPieces path = namedPieces base ++ rest) :
    ∃ tail, relativeTo? base path = some tail ∧ steps tail = rest.map stepOf := by
  have hprefix : (steps base).isPrefixOf (steps path) = true := by
    rw [steps_of_isAbsolute hbase, steps_of_isAbsolute hpath, h, List.map_append,
      List.isPrefixOf_iff_prefix]
    exact ⟨rest.map stepOf, rfl⟩
  have hcount : ((steps base).filter fun s => s != .root && s != .here).length =
      (namedPieces base).length := by
    have hstep (p : String) : (stepOf p != .root && stepOf p != .here) = true := by
      rw [stepOf]
      split <;> rfl
    rw [steps_of_isAbsolute hbase, List.filter_cons_of_neg (by decide), List.filter_map]
    simp [Function.comp_def, hstep]
  have hempty : (steps base).isEmpty = false := by rw [steps_of_isAbsolute hbase]; rfl
  -- The pieces behind the base, and those of them up to the last step.
  let left := dropSteps (namedPieces base).length (pieces path)
  let trimmed := (left.reverse.dropWhile isVoid).reverse
  have htrimmed : trimmed <+: left := by
    simpa only [List.reverse_reverse] using (List.dropWhile_suffix isVoid (l := left.reverse)).reverse
  have hleft : trimmed.filter (!isVoid ·) = rest := by
    have hdrop : left.filter (!isVoid ·) = rest := by
      rw [filter_dropSteps, ← namedPieces, h, List.drop_left]
    rw [← hdrop, List.filter_reverse, filter_dropWhile_isVoid, List.filter_reverse,
      List.reverse_reverse]
  refine ⟨joinPieces trimmed, ?_, ?_⟩
  · rw [relativeTo?, if_pos hprefix]
    simp only [hempty, hcount]
    rfl
  · rw [steps_joinPieces, hleft]
    · intro piece hpiece
      exact slash_notMem_of_mem_pieces (dropSteps_subset _ _ (htrimmed.subset hpiece))
    · intro p hp
      obtain ⟨ps, hps⟩ := List.head?_eq_some_iff.1 hp
      obtain ⟨more, hmore⟩ := htrimmed
      exact @head?_dropSteps (namedPieces base).length (pieces path) p (by
        change left.head? = some p
        rw [← hmore, hps]
        rfl)

end Path

open JsxToJinja.Path JsxToJinja.Text

theorem Layout.relative_of_namedPieces {l : Layout} {path : String} {rest : List String}
    (hroot : isAbsolute l.root = true) (hpath : isAbsolute path = true)
    (h : namedPieces path = namedPieces l.root ++ rest) : l.relative path = joinPieces rest := by
  obtain ⟨tail, htail, hsteps⟩ := relativeTo?_of_namedPieces hroot hpath h
  have htext (p : String) : (stepOf p).text = p := by
    rw [stepOf]
    split
    · exact (beq_iff_eq.1 ‹_›).symm
    · rfl
  rw [relative, htail, Option.getD_some, hsteps, List.map_map]
  simp [Function.comp_def, htext, joinPieces]

/-- Slashes at the end of a directory lead nowhere. -/
theorem namedPieces_withoutTrailingSlashes (dir : String) :
    namedPieces (withoutTrailingSlashes dir) = namedPieces dir := by
  have hlist (t : List Char) : namedPieces (String.ofList (t.dropWhile (· == '/')).reverse) =
      namedPieces (String.ofList t.reverse) := by
    induction t with
    | nil => rfl
    | cons c t ih =>
      rw [List.dropWhile_cons]
      split
      · obtain rfl : c = '/' := beq_iff_eq.1 ‹_›
        rw [ih, List.reverse_cons, String.ofList_append]
        exact (namedPieces_trailing _).symm
      · rfl
  simpa [withoutTrailingSlashes] using hlist dir.toList.reverse

/-- A path gives a component when it is made up of the directory of components as it is configured,
the component and the code file as it is configured. -/
theorem Config.componentOf?_eq_some_iff {config : Config} {sourceFile c : String} :
    config.componentOf? sourceFile = some c ↔ Plain c ∧ sourceFile =
      withoutTrailingSlashes config.componentsDir ++ "/" ++ (c ++ "/" ++ config.templateFile) := by
  simp only [componentOf?, Option.bind_eq_bind, Option.bind_eq_some_iff, dropHead?_eq_some,
    Prod.exists, splitOnce?_char_eq_some, Option.ite_none_right_eq_some, beq_iff_eq,
    Option.some.injEq]
  constructor
  · rintro ⟨rest, htext, component, file, ⟨rfl, hplain⟩, rfl, rfl⟩
    refine ⟨by rwa [Plain, String.toList_ofList], ?_⟩
    rw [← String.toList_inj, htext]
    simp
  · rintro ⟨hplain, rfl⟩
    exact ⟨_, String.toList_append .., c.toList, _, ⟨by simp, hplain⟩, rfl, String.ofList_toList⟩

def Config.noted (config : Config) (root c : String) : String :=
  let l := config.layout root
  l.relative (join (join l.components c) config.templateFile)

/-- A path without a doubled, leading or trailing slash and without a `.`. -/
def IsClean (path : String) : Prop := ∀ piece ∈ pieces path, isVoid piece = false

instance (path : String) : Decidable (IsClean path) :=
  inferInstanceAs (Decidable (∀ piece ∈ pieces path, isVoid piece = false))

theorem IsClean.namedPieces_eq {path : String} (h : IsClean path) : namedPieces path = pieces path :=
  List.filter_eq_self.2 fun piece hpiece => by simp [h piece hpiece]

/-- The component can be told from the path to its code. -/
structure Config.Findable (config : Config) (c : String) : Prop where
  directory : IsClean (withoutTrailingSlashes config.componentsDir)
  name : isVoid c = false
  file : IsClean config.templateFile

section

variable {config : Config} {root c : String}

/-- A definition notes the steps to the code of its component, with one slash between them. -/
theorem Config.noted_eq (hroot : isAbsolute root = true)
    (hdir : isAbsolute config.componentsDir = false)
    (hfile : isAbsolute config.templateFile = false) (hc : Plain c) :
    config.noted root c = joinPieces (namedPieces config.componentsDir ++ namedPieces c ++
      namedPieces config.templateFile) := by
  have habs : isAbsolute c = false := by
    rw [← Bool.not_eq_true]
    intro h
    obtain ⟨t, ht⟩ := List.head?_eq_some_iff.1 (beq_iff_eq.1 h)
    exact hc (ht ▸ List.mem_cons_self)
  rw [noted]
  refine Layout.relative_of_namedPieces hroot ?_ ?_
  · exact isAbsolute_join_of_isAbsolute
      (isAbsolute_join_of_isAbsolute (isAbsolute_join_of_isAbsolute hroot hdir) habs) hfile
  · rw [namedPieces_join _ hfile, namedPieces_join _ habs]
    change namedPieces (join root config.componentsDir) ++ _ ++ _ = _
    rw [namedPieces_join _ hdir]
    simp only [List.append_assoc]
    rfl

/-- What is noted is what is looked for when nothing in it is written with detours. -/
theorem Config.noted_eq_spelled_iff (hroot : isAbsolute root = true)
    (hdir : isAbsolute config.componentsDir = false)
    (hfile : isAbsolute config.templateFile = false) (hc : Plain c) :
    config.noted root c =
        withoutTrailingSlashes config.componentsDir ++ "/" ++ (c ++ "/" ++ config.templateFile) ↔
      config.Findable c := by
  let dir := withoutTrailingSlashes config.componentsDir
  have hspelled : pieces (dir ++ "/" ++ (c ++ "/" ++ config.templateFile)) =
      pieces dir ++ ([c] ++ pieces config.templateFile) := by
    rw [pieces_slash, pieces_slash, pieces_of_notMem hc]
  rw [Config.noted_eq hroot hdir hfile hc, ← namedPieces_withoutTrailingSlashes config.componentsDir]
  change joinPieces (namedPieces dir ++ _ ++ _) = dir ++ "/" ++ _ ↔ _
  constructor
  · intro h
    have hmem {piece : String} (hpiece : piece ∈ namedPieces dir ++ namedPieces c ++
        namedPieces config.templateFile) : '/' ∉ piece.toList ∧ isVoid piece = false := by
      rw [List.append_assoc, List.mem_append, List.mem_append] at hpiece
      rcases hpiece with hpiece | hpiece | hpiece <;>
        obtain ⟨hpiece, hvoid⟩ := List.mem_filter.1 hpiece <;>
        exact ⟨slash_notMem_of_mem_pieces hpiece, by simpa using hvoid⟩
    have hpieces : namedPieces dir ++ namedPieces c ++ namedPieces config.templateFile =
        pieces dir ++ ([c] ++ pieces config.templateFile) := by
      rw [← hspelled, ← h, pieces_joinPieces _ fun _ hpiece => (hmem hpiece).1]
      intro hnil
      rw [hnil] at h
      exact absurd (congrArg String.toList h) (by simp [joinPieces])
    have hclean {piece : String} (hpiece : piece ∈ pieces dir ++ ([c] ++ pieces config.templateFile)) :
        isVoid piece = false := by
      rw [← hpieces] at hpiece
      exact (hmem hpiece).2
    exact ⟨fun p hp => hclean (List.mem_append_left _ hp),
      hclean (List.mem_append_right _ List.mem_cons_self),
      fun p hp => hclean (List.mem_append_right _ (List.mem_cons_of_mem _ hp))⟩
  · rintro ⟨hdir, hvoid, hfile⟩
    have hname : namedPieces c = [c] := by
      rw [namedPieces, pieces_of_notMem hc, List.filter_cons_of_pos (by simp [hvoid]), List.filter_nil]
    rw [hdir.namedPieces_eq, hfile.namedPieces_eq, hname, List.append_assoc, ← hspelled,
      joinPieces_pieces]

theorem Config.componentOf?_noted_iff (hroot : isAbsolute root = true)
    (hdir : isAbsolute config.componentsDir = false)
    (hfile : isAbsolute config.templateFile = false) (hc : Plain c) :
    config.componentOf? (config.noted root c) = some c ↔ config.Findable c := by
  rw [componentOf?_eq_some_iff, noted_eq_spelled_iff hroot hdir hfile hc]
  exact and_iff_right hc

/-- The noted path leads back to the component just when the configuration lets it be found and its
code is no JSON file. -/
theorem CommandLine.Origin.of_noted_iff (hroot : isAbsolute root = true)
    (hdir : isAbsolute config.componentsDir = false)
    (hfile : isAbsolute config.templateFile = false) (hc : Plain c) :
    Origin.of config (config.noted root c) = .component c ↔
      config.Findable c ∧ endsWith config.templateFile.toList ".json".toList = false := by
  have hfound := config.componentOf?_noted_iff hroot hdir hfile hc
  have hending (h : config.Findable c) : endsWith (config.noted root c).toList ".json".toList =
      endsWith config.templateFile.toList ".json".toList := by
    have htext : (withoutTrailingSlashes config.componentsDir ++ "/" ++
        (c ++ "/" ++ config.templateFile)).toList =
        ((withoutTrailingSlashes config.componentsDir).toList ++ '/' :: c.toList) ++
          '/' :: config.templateFile.toList := by simp
    rw [(config.noted_eq_spelled_iff hroot hdir hfile hc).2 h, htext,
      endsWith_append_char (by decide)]
  constructor
  · intro h
    rw [Origin.of] at h
    split at h
    · cases h
    · rename_i hjson
      split at h
      · rename_i name hname
        cases h
        have hfindable := hfound.1 hname
        rw [hending hfindable, Bool.not_eq_true] at hjson
        exact ⟨hfindable, hjson⟩
      · cases h
  · rintro ⟨hfindable, hjson⟩
    rw [Origin.of, hending hfindable, hjson, hfound.2 hfindable]
    rfl

theorem Project.template_of_locate {p : Project} {f : SourceFiles} {w w' : Workspace}
    (h : (p.locate c).run.run w = (.ok f, w')) :
    f.template = join (join p.layout.components c) p.config.templateFile := by
  rw [locate, Conversion.run_bind, Conversion.run_files] at h
  dsimp only at h
  split at h
  · cases h
  · cases h
    rfl

/-- The way back from the noted path to the component is open exactly when the configured
directory, but for slashes at its end, and the configured file are written without detours.
Regeneration then takes the definition for that of the component, unless the code is in a JSON
file. -/
theorem Config.component_found_again_iff (config : Config) (root c : String)
    (hroot : isAbsolute root = true) (hdir : isAbsolute config.componentsDir = false)
    (hfile : isAbsolute config.templateFile = false) (hc : Plain c) :
    (config.componentOf? (config.noted root c) = some c ↔ config.Findable c) ∧
    (CommandLine.Origin.of config (config.noted root c) = .component c ↔
      config.Findable c ∧ endsWith config.templateFile.toList ".json".toList = false) :=
  ⟨componentOf?_noted_iff hroot hdir hfile hc, CommandLine.Origin.of_noted_iff hroot hdir hfile hc⟩

/-- Slashes at the end of the directory do no harm. -/
theorem Config.button_found_with_trailing_slashes :
    let config : Config := { componentsDir := "rvo/components//" }
    isAbsolute "/p" = true ∧ isAbsolute config.componentsDir = false ∧
      isAbsolute config.templateFile = false ∧ Plain "button" ∧
      config.componentOf? (config.noted "/p" "button") = some "button" ∧
      CommandLine.Origin.of config (config.noted "/p" "button") = .component "button" := by
  intro config
  have hroot : isAbsolute "/p" = true := by decide
  have hdir : isAbsolute config.componentsDir = false := by decide
  have hfile : isAbsolute config.templateFile = false := by decide
  have hplain : Plain "button" := by decide
  have hfindable : config.Findable "button" := ⟨by decide, by decide, by decide⟩
  obtain ⟨hcomponent, horigin⟩ :=
    component_found_again_iff config "/p" "button" hroot hdir hfile hplain
  exact ⟨hroot, hdir, hfile, hplain, hcomponent.2 hfindable, horigin.2 ⟨hfindable, by decide⟩⟩

/-- A dot in front of the directory closes the way back: the component counts as nested. -/
theorem Config.button_lost_behind_dot :
    let config : Config := { componentsDir := "./rvo/components" }
    config.noted "/p" "button" = "rvo/components/button/src/template.tsx" ∧
      config.componentOf? (config.noted "/p" "button") = none ∧
      CommandLine.Origin.of config (config.noted "/p" "button") = .nested := by
  decide

/-- A component that was converted is converted again as such under the same condition. -/
theorem Project.origin_of_converted_iff {p : Project} {time : String} {options : ConvertOptions}
    {w w' : Workspace} {s : Summary} (hlayout : p.layout = p.config.layout root)
    (hroot : isAbsolute root = true) (hdir : isAbsolute p.config.componentsDir = false)
    (hfile : isAbsolute p.config.templateFile = false) (hc : Plain c)
    (h : (p.convert time c options).run.run w = (.ok s, w')) :
    CommandLine.Origin.of p.config s.sourceFile = .component c ↔
      p.config.Findable c ∧ endsWith p.config.templateFile.toList ".json".toList = false := by
  obtain ⟨_, f, -, hlocate, ⟨course⟩⟩ := Project.course_of_convert h
  have hsource : s.sourceFile = p.config.noted root c := by
    have htemplate : f.template =
        join (join p.layout.components c) p.config.templateFile := Project.template_of_locate hlocate
    rw [(Project.finish_ok course.finishes).1, Config.noted, ← hlayout, ← htemplate]
    rfl
  rw [hsource]
  exact CommandLine.Origin.of_noted_iff hroot hdir hfile hc

end

end JsxToJinja
