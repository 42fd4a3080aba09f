import JsxToJinja.Project.Config
import JsxToJinja.Proofs.Text.Pieces

/-! Where a project without a configuration file puts what it makes: under plain names no two files
share a place. -/
namespace JsxToJinja

namespace Path
open JsxToJinja.Text

theorem pieces_slash (a b : String) : pieces (a ++ "/" ++ b) = pieces a ++ pieces b := by
  have h : (a ++ "/" ++ b).toList = a.toList ++ '/' :: b.toList := by simp
  rw [pieces, h, splitOn_append_char, List.map_append]
  rfl

theorem pieces_of_notMem {name : String} (h : '/' ∉ name.toList) : pieces name = [name] := by
  rw [pieces, splitOn_plain h, List.map_singleton, String.ofList_toList]

theorem joinPieces_pieces (path : String) : joinPieces (pieces path) = path := by
  rw [← String.toList_inj, joinPieces, String.toList_intercalate, pieces, List.map_map]
  have hmap : (splitOn ['/'] path.toList).map (String.toList ∘ String.ofList) =
      splitOn ['/'] path.toList := by simp [Function.comp_def]
  rw [hmap]
  exact intercalate_splitOn '/' path.toList

/-- Names with a slash after each. -/
def slashed (names : List String) : String := String.join (names.map (· ++ "/"))

theorem joinPieces_append (names : List String) {ps : List String} (h : ps ≠ []) :
    joinPieces (names ++ ps) = slashed names ++ joinPieces ps := by
  induction names with
  | nil => simp [slashed]
  | cons n names ih =>
    have hcons : joinPieces (n :: (names ++ ps)) = n ++ "/" ++ joinPieces (names ++ ps) := by
      cases hrest : names ++ ps with
      | nil => simp_all
      | cons m rest => simp [joinPieces]
    rw [List.cons_append, hcons, ih]
    simp [slashed, ← String.append_assoc]

/-- The path goes down one name after another from wherever it starts. -/
def GoesDown (path : String) : Prop := ∀ piece ∈ pieces path, isVoid piece = false ∧ piece ≠ ".."

theorem names_eq (path : String) :
    names path = (((pieces path).filter (!isVoid ·)).map stepOf).foldl enter [] := by
  rw [names, steps, List.foldl_append]
  congr 1
  split
  · rfl
  · split <;> rfl

theorem foldl_enter_names (names : List String) {ps : List String}
    (h : ∀ piece ∈ ps, isVoid piece = false ∧ piece ≠ "..") :
    ((ps.filter (!isVoid ·)).map stepOf).foldl enter names = names ++ ps := by
  induction ps generalizing names with
  | nil => simp
  | cons piece ps ih =>
    obtain ⟨hvoid, hup⟩ := h piece List.mem_cons_self
    have hstep : stepOf piece = .name piece := by simp [stepOf, hup]
    rw [List.filter_cons_of_pos (by simp [hvoid]), List.map_cons, List.foldl_cons, hstep, enter,
      ih _ fun q hq => h q (List.mem_cons_of_mem _ hq), List.append_assoc, List.singleton_append]

theorem names_slash (a : String) {b : String} (h : GoesDown b) :
    names (a ++ "/" ++ b) = names a ++ pieces b := by
  rw [names_eq, pieces_slash, List.filter_append, List.map_append, List.foldl_append, ← names_eq,
    foldl_enter_names _ h]

/-- A trailing slash leads nowhere. -/
theorem names_trailing (a : String) : names (a ++ "/") = names a := by
  have h : pieces (a ++ "/") = pieces a ++ [""] := by
    simpa [pieces, splitOn, piecesFrom] using pieces_slash a ""
  rw [names_eq, h, List.filter_append, names_eq]
  simp [isVoid]

theorem GoesDown.not_isAbsolute {path : String} (h : GoesDown path) : isAbsolute path = false := by
  rw [← Bool.not_eq_true]
  intro habs
  rw [isAbsolute, beq_iff_eq] at habs
  obtain ⟨t, ht⟩ := List.head?_eq_some_iff.mp habs
  have hpath : path = "" ++ "/" ++ String.ofList t := by
    rw [← String.toList_inj, ht]
    simp
  have hmem : "" ∈ pieces path := by
    rw [hpath, pieces_slash]
    exact List.mem_append_left _ (by decide)
  exact absurd (h "" hmem).1 (by decide)

/-- What stands before a path that is joined to the root. -/
def lead (root : String) : String :=
  if root.isEmpty then "" else if root.toList.getLast? == some '/' then root else root ++ "/"

theorem join_eq_lead (root : String) {path : String} (h : GoesDown path) :
    join root path = lead root ++ path := by
  rw [join, lead, h.not_isAbsolute, Bool.false_or]
  split
  · simp
  · split <;> rfl

theorem lead_cases (root : String) : (root = "" ∧ lead root = "") ∨
    (∃ r, root = r ++ "/" ∧ lead root = r ++ "/") ∨ (root ≠ "" ∧ lead root = root ++ "/") := by
  by_cases hempty : root = ""
  · exact .inl ⟨hempty, by simp [lead, hempty]⟩
  · have hlead : lead root = if root.toList.getLast? == some '/' then root else root ++ "/" := by
      simp [lead, hempty]
    refine .inr ?_
    rw [hlead]
    split
    · rename_i hlast
      rw [beq_iff_eq, List.getLast?_eq_some_iff] at hlast
      obtain ⟨r, hr⟩ := hlast
      have hroot : root = String.ofList r ++ "/" := by simp [← String.toList_inj, hr]
      exact .inl ⟨_, hroot, hroot⟩
    · exact .inr ⟨hempty, rfl⟩

theorem names_join (root : String) {path : String} (h : GoesDown path) :
    names (join root path) = names root ++ pieces path := by
  rw [join_eq_lead root h]
  rcases lead_cases root with ⟨rfl, hlead⟩ | ⟨r, rfl, hlead⟩ | ⟨-, hlead⟩
  · rw [hlead, String.empty_append, names_eq, foldl_enter_names _ h]
    rfl
  · rw [hlead, names_slash r h, names_trailing]
  · rw [hlead, names_slash root h]

theorem isAbsolute_join (root : String) {path : String} (h : GoesDown path) :
    isAbsolute (join root path) = isAbsolute root := by
  rw [join_eq_lead root h]
  rcases lead_cases root with ⟨rfl, hlead⟩ | ⟨r, rfl, hlead⟩ | ⟨hne, hlead⟩
  · rw [hlead, String.empty_append, h.not_isAbsolute]
    rfl
  · rw [hlead]
    cases hr : r.toList <;> simp [isAbsolute, hr]
  · rw [hlead]
    cases hr : root.toList with
    | nil => exact absurd (String.toList_eq_nil_iff.mp hr) hne
    | cons c t => simp [isAbsolute, hr]

theorem GoesDown.slash {a b : String} (ha : GoesDown a) (hb : GoesDown b) :
    GoesDown (a ++ "/" ++ b) := by
  intro piece hmem
  rw [pieces_slash, List.mem_append] at hmem
  exact hmem.elim (ha piece) (hb piece)

theorem GoesDown.getLast?_ne {path : String} (h : GoesDown path) :
    path ≠ "" ∧ path.toList.getLast? ≠ some '/' := by
  refine ⟨?_, fun hlast => ?_⟩
  · rintro rfl
    exact absurd (h "" (by decide)).1 (by decide)
  · obtain ⟨r, hr⟩ := List.getLast?_eq_some_iff.mp hlast
    have hpath : path = String.ofList r ++ "/" ++ "" := by simp [← String.toList_inj, hr]
    have hmem : "" ∈ pieces path := by
      rw [hpath, pieces_slash]
      exact List.mem_append_right _ (by decide)
    exact absurd (h "" hmem).1 (by decide)

/-- Going down twice is going down once. -/
theorem join_join (root : String) {a b : String} (ha : GoesDown a) (hb : GoesDown b) :
    join (join root a) b = join root (a ++ "/" ++ b) := by
  have hlead : lead (lead root ++ a) = lead root ++ a ++ "/" := by
    obtain ⟨hne, hlast⟩ := ha.getLast?_ne
    rw [lead, if_neg, if_neg]
    · simpa using ⟨hlast, fun hempty => absurd hempty hne⟩
    · simpa using fun _ => hne
  rw [join_eq_lead _ hb, join_eq_lead _ ha, join_eq_lead _ (ha.slash hb), hlead]
  simp [String.append_assoc]

theorem pieces_ne_nil (path : String) : pieces path ≠ [] := by
  intro h
  have hpath : path = "" := by
    rw [← joinPieces_pieces path, h]
    rfl
  rw [hpath] at h
  exact absurd h (by decide)

/-- A path that goes down from a root is appended to where the root leads. -/
theorem normalize_join (root : String) : ∃ front, ∀ path, GoesDown path →
    normalize (join root path) = front ++ path := by
  refine ⟨(if isAbsolute root then "/" else "") ++ slashed (names root), fun path h => ?_⟩
  rw [normalize, isAbsolute_join root h, names_join root h,
    joinPieces_append _ (pieces_ne_nil path), joinPieces_pieces, String.append_assoc]

end Path

open JsxToJinja.Path

/-- A name that is one piece of a path. -/
def Plain (name : String) : Prop := '/' ∉ name.toList

instance (name : String) : Decidable (Plain name) := inferInstanceAs (Decidable ('/' ∉ name.toList))

/-- A plain name with an ending of at least three characters. -/
theorem Plain.goesDown {name : String} (h : Plain name) (ending : String)
    (hplain : '/' ∉ ending.toList) (hlong : 2 < ending.toList.length) : GoesDown (name ++ ending) := by
  have hmem : '/' ∉ (name ++ ending).toList := by
    rw [String.toList_append, List.mem_append]
    exact fun h' => h'.elim h hplain
  intro piece hpiece
  rw [pieces_of_notMem hmem, List.mem_singleton] at hpiece
  have hlength : 2 < piece.toList.length := by
    rw [hpiece, String.toList_append, List.length_append]
    omega
  have hne : ∀ short : String, short.toList.length ≤ 2 → piece ≠ short := by
    rintro short hshort rfl
    omega
  refine ⟨?_, hne ".." (by decide)⟩
  simp [isVoid, hne "" (by decide), hne "." (by decide)]

/-- What is made for a name, and the registry that all names share. -/
inductive Place where
  | template (name : String)
  | definition (name : String)
  | review (name : String)
  | registry
deriving DecidableEq

namespace Place

def IsPlain : Place → Prop
  | template n | definition n | review n => Plain n
  | registry => True

def below (dir name ending : String) : String := dir ++ "/" ++ (name ++ ending)

/-- The place below the root of a project without a configuration file. -/
def standard : Place → String
  | template n => below "templates/components" n ".html.j2"
  | definition n => below "conversion/definitions" n ".json"
  | review n => below "conversion/review" n "_review.md"
  | registry => "definitions.json"

theorem eq_of_standard_eq {a b : Place} (h : standard a = standard b) : a = b := by
  cases a <;> cases b <;>
    simp only [standard, below, String.append_right_inj, String.append_left_inj] at h
  -- Only things of one kind are left to compare by name; others differ in an early character.
  all_goals first
    | rw [h]
    | rfl
    | simpa using congrArg String.toList h

end Place

namespace Layout

def place (l : Layout) : Place → String
  | .template n => l.template n
  | .definition n => l.definition n
  | .review n => l.reviewDocument n
  | .registry => l.registry

/-- What is made lies where a project without a configuration file has it. -/
structure HasStandardOutputs (l : Layout) : Prop where
  templates : l.templates = (({} : Config).layout l.root).templates
  definitions : l.definitions = (({} : Config).layout l.root).definitions
  review : l.review = (({} : Config).layout l.root).review
  registry : l.registry = (({} : Config).layout l.root).registry

theorem hasStandardOutputs_layout (root : String) :
    (({} : Config).layout root).HasStandardOutputs := ⟨rfl, rfl, rfl, rfl⟩

namespace HasStandardOutputs

variable {l : Layout}

/-- Every output lies below the root, down one name after another. -/
theorem place_eq (h : l.HasStandardOutputs) {a : Place} (ha : a.IsPlain) :
    GoesDown a.standard ∧ l.place a = join l.root a.standard := by
  cases a with
  | template n =>
    have hdir : GoesDown "templates/components" := by unfold GoesDown; decide
    have hn := Plain.goesDown ha ".html.j2" (by decide) (by decide)
    refine ⟨hdir.slash hn, ?_⟩
    rw [place, template, h.templates]
    exact join_join l.root hdir hn
  | definition n =>
    have hdir : GoesDown "conversion/definitions" := by unfold GoesDown; decide
    have hn := Plain.goesDown ha ".json" (by decide) (by decide)
    refine ⟨hdir.slash hn, ?_⟩
    rw [place, definition, h.definitions]
    exact join_join l.root hdir hn
  | review n =>
    have hdir : GoesDown "conversion/review" := by unfold GoesDown; decide
    have hn := Plain.goesDown ha "_review.md" (by decide) (by decide)
    refine ⟨hdir.slash hn, ?_⟩
    rw [place, reviewDocument, h.review]
    exact join_join l.root hdir hn
  | registry =>
    refine ⟨by unfold GoesDown; decide, ?_⟩
    rw [place, h.registry]
    rfl

/-- Different things are made in different places, wherever the project lies. -/
theorem place_injective (h : l.HasStandardOutputs) {a b : Place} (ha : a.IsPlain) (hb : b.IsPlain)
    (hab : normalize (l.place a) = normalize (l.place b)) : a = b := by
  obtain ⟨front, hfront⟩ := normalize_join l.root
  obtain ⟨hdownA, hplaceA⟩ := h.place_eq ha
  obtain ⟨hdownB, hplaceB⟩ := h.place_eq hb
  rw [hplaceA, hplaceB, hfront _ hdownA, hfront _ hdownB] at hab
  exact Place.eq_of_standard_eq ((String.append_right_inj front).mp hab)

end HasStandardOutputs

end Layout

end JsxToJinja
