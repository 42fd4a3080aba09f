import JsxToJinja.Proofs.Project.Origins

/-! Where a path leads from a directory, and where the path without its detours leads from there. -/
namespace JsxToJinja.Path

/-- Where one more step leads from a place, a place being the names on the way from the root to it.
The root has no parent but itself. -/
def follow (place : List String) : Step → List String
  | .root => []
  | .here => place
  | .up => place.dropLast
  | .name n => place ++ [n]

/-- Where the path leads from a directory. -/
def walk (base : List String) (path : String) : List String := (steps path).foldl follow base

def climbs (path : String) : Nat := (steps path).count .up

/-- A way that leads up first and then down. -/
structure Way where
  ups : Nat := 0
  down : List String := []
deriving Repr, DecidableEq

namespace Way

def enter (w : Way) : Step → Way
  | .root | .here => w
  | .up => if w.down.isEmpty then { w with ups := w.ups + 1 } else { w with down := w.down.dropLast }
  | .name n => { w with down := w.down ++ [n] }

/-- What is left of the steps when each `..` takes back the name before it. -/
def ofSteps (ss : List Step) : Way := ss.foldl enter {}

/-- Where the way leads from a directory. -/
def arrive (w : Way) (base : List String) : List String := base.take (base.length - w.ups) ++ w.down

/-- The way as names. A `..` takes back the one before it, so an even number of them leaves none. -/
def names (w : Way) : List String := (if w.ups % 2 = 0 then [] else [".."]) ++ w.down

theorem arrive_enter (w : Way) (base : List String) {s : Step} (h : s ≠ .root) :
    (w.enter s).arrive base = follow (w.arrive base) s := by
  cases s with
  | root => contradiction
  | here => rfl
  | up =>
    by_cases hd : w.down = []
    · have hlen : base.length - (w.ups + 1) = min (base.length - w.ups) base.length - 1 := by omega
      simp [enter, arrive, follow, hd, hlen, List.dropLast_eq_take, List.take_take]
    · simp [enter, arrive, follow, hd, List.dropLast_append_of_ne_nil]
  | name n => simp [enter, arrive, follow]

theorem names_enter (w : Way) (s : Step) : (w.enter s).names = Path.enter w.names s := by
  cases s with
  | root => rfl
  | here => rfl
  | up =>
    by_cases hd : w.down = []
    · by_cases hu : w.ups % 2 = 0
      · have hodd : (w.ups + 1) % 2 ≠ 0 := by omega
        simp [enter, names, Path.enter, hd, hu, hodd]
      · have heven : (w.ups + 1) % 2 = 0 := by omega
        simp [enter, names, Path.enter, hd, hu, heven]
    · have hne : w.names ≠ [] := by simp [names, hd]
      simp [enter, names, Path.enter, hd, List.dropLast_append_of_ne_nil]
  | name n => exact (List.append_assoc _ _ _).symm

theorem arrive_ofSteps {ss : List Step} (h : .root ∉ ss) (base : List String) :
    (ofSteps ss).arrive base = ss.foldl follow base := by
  have run (w : Way) : (ss.foldl enter w).arrive base = ss.foldl follow (w.arrive base) := by
    induction ss generalizing w with
    | nil => rfl
    | cons s ss ih =>
      rw [List.mem_cons, not_or] at h
      rw [List.foldl_cons, List.foldl_cons, ih h.2, arrive_enter w base (Ne.symm h.1)]
  rw [ofSteps, run, arrive, Nat.sub_zero, List.take_length, List.append_nil]

theorem names_ofSteps (ss : List Step) : (ofSteps ss).names = ss.foldl Path.enter [] := by
  have run (w : Way) : (ss.foldl enter w).names = ss.foldl Path.enter w.names := by
    induction ss generalizing w with
    | nil => rfl
    | cons s ss ih => rw [List.foldl_cons, List.foldl_cons, ih, names_enter]
  exact run {}

theorem ups_ofSteps_le (ss : List Step) : (ofSteps ss).ups ≤ ss.count .up := by
  have run (w : Way) : (ss.foldl enter w).ups ≤ w.ups + ss.count .up := by
    induction ss generalizing w with
    | nil => exact Nat.le_refl _
    | cons s ss ih =>
      have hrest := ih (w.enter s)
      have hstep : (w.enter s).ups ≤ w.ups + (if s == .up then 1 else 0) := by
        cases s with
        | up =>
          rw [enter]
          split <;> simp
        | root | here | name n => exact Nat.le_refl _
      rw [List.foldl_cons, List.count_cons]
      omega
  exact Nat.zero_add (ss.count .up) ▸ run {}

theorem mem_of_mem_down {ss : List Step} {n : String} (h : n ∈ (ofSteps ss).down) : .name n ∈ ss := by
  have run (w : Way) : n ∈ (ss.foldl enter w).down → n ∈ w.down ∨ .name n ∈ ss := by
    clear h
    induction ss generalizing w with
    | nil => exact .inl
    | cons s ss ih =>
      intro h
      rcases ih (w.enter s) h with hw | hss
      · cases s with
        | root | here => exact .inl hw
        | up =>
          rw [enter] at hw
          split at hw
          · exact .inl hw
          · exact .inl ((List.dropLast_subset _ hw))
        | name m =>
          rcases List.mem_append.1 hw with hw | hm
          · exact .inl hw
          · exact .inr (by simp [List.mem_singleton.1 hm])
      · exact .inr (List.mem_cons_of_mem s hss)
  exact (run {} h).resolve_left List.not_mem_nil

/-- Going down from a way that does not go down yet. -/
theorem foldl_enter_names (ups : Nat) (down : List String) :
    (down.map .name).foldl enter ⟨ups, []⟩ = ⟨ups, down⟩ := by
  have run (front : List String) :
      (down.map .name).foldl enter ⟨ups, front⟩ = ⟨ups, front ++ down⟩ := by
    induction down generalizing front with
    | nil => simp
    | cons n down ih => simp [enter, ih]
  exact run []

end Way

/-- The way of a path from where it starts, the root or a directory. -/
def way (path : String) : Way := Way.ofSteps ((namedPieces path).map stepOf)

theorem names_eq_way (path : String) : names path = (way path).names := by
  rw [names_eq, way, Way.names_ofSteps]
  rfl

theorem root_notMem_map_stepOf (ps : List String) : .root ∉ ps.map stepOf := by
  intro h
  obtain ⟨p, -, hp⟩ := List.mem_map.1 h
  rw [stepOf] at hp
  split at hp <;> cases hp

theorem walk_eq_arrive (base : List String) (path : String) :
    walk base path = (way path).arrive (if isAbsolute path then [] else base) := by
  rw [way, Way.arrive_ofSteps (root_notMem_map_stepOf _), walk]
  by_cases habs : isAbsolute path = true
  · rw [steps_of_isAbsolute habs, if_pos habs]
    rfl
  · rw [steps, if_neg habs, if_neg habs, List.foldl_append]
    split <;> rfl

theorem ups_way_le (path : String) : (way path).ups ≤ climbs path := by
  refine Nat.le_trans (Way.ups_ofSteps_le _) ?_
  rw [climbs, steps, List.count_append]
  exact Nat.le_add_left _ _

/-- Names on the way down are pieces of the path. -/
theorem of_mem_down {path n : String} (h : n ∈ (way path).down) :
    isVoid n = false ∧ n ≠ ".." ∧ '/' ∉ n.toList := by
  obtain ⟨p, hp, hstep⟩ := List.mem_map.1 (Way.mem_of_mem_down h)
  obtain ⟨hpiece, hvoid⟩ := List.mem_filter.1 hp
  rw [stepOf] at hstep
  split at hstep
  · cases hstep
  · rename_i hne
    cases hstep
    exact ⟨by simpa using hvoid, by simpa using hne, slash_notMem_of_mem_pieces hpiece⟩

theorem of_mem_names {path n : String} (h : n ∈ names path) : isVoid n = false ∧ '/' ∉ n.toList := by
  rw [names_eq_way, Way.names, List.mem_append] at h
  rcases h with h | h
  · split at h
    · cases h
    · rw [List.mem_singleton.1 h]
      decide
  · obtain ⟨hvoid, -, hslash⟩ := of_mem_down h
    exact ⟨hvoid, hslash⟩

theorem isAbsolute_normalize (path : String) : isAbsolute (normalize path) = isAbsolute path := by
  by_cases habs : isAbsolute path = true
  · have hslash : isAbsolute ("/" ++ joinPieces (names path)) = true := by simp [isAbsolute]
    rw [normalize, if_pos habs, hslash, habs]
  · have hrel : isAbsolute (joinPieces (names path)) = false :=
      isAbsolute_joinPieces (fun n hn => (of_mem_names hn).2)
        fun n hn => (of_mem_names (List.mem_of_head? hn)).1
    simp [normalize, habs, hrel]

theorem namedPieces_normalize (path : String) : namedPieces (normalize path) = names path := by
  have hjoined : namedPieces (joinPieces (names path)) = names path := by
    by_cases hnil : names path = []
    · rw [hnil]
      rfl
    · rw [namedPieces, pieces_joinPieces hnil fun n hn => (of_mem_names hn).2,
        List.filter_eq_self]
      intro n hn
      simp [(of_mem_names hn).1]
  rw [normalize]
  split
  · have hslash := namedPieces_slash "" (joinPieces (names path))
    rw [String.empty_append] at hslash
    rw [hslash, hjoined]
    rfl
  · rw [String.empty_append, hjoined]

/-- Of the steps up that are left, those that stand in pairs are lost. -/
theorem way_normalize (path : String) :
    way (normalize path) = ⟨(way path).ups % 2, (way path).down⟩ := by
  have hdown : (way path).down.map stepOf = (way path).down.map .name := by
    refine List.map_congr_left fun n hn => ?_
    simp [stepOf, (of_mem_down hn).2.1]
  rw [way, namedPieces_normalize, names_eq_way, Way.names, List.map_append, hdown, Way.ofSteps,
    List.foldl_append]
  by_cases hu : (way path).ups % 2 = 0
  · rw [if_pos hu, hu]
    exact Way.foldl_enter_names 0 _
  · have hone : (way path).ups % 2 = 1 := by omega
    rw [if_neg hu, hone]
    exact Way.foldl_enter_names 1 _

theorem normalize_normalize (path : String) : normalize (normalize path) = normalize path := by
  have hnames : names (normalize path) = names path := by
    rw [names_eq_way, way_normalize, names_eq_way, Way.names, Way.names, Nat.mod_mod]
  rw [normalize, isAbsolute_normalize, hnames, normalize]

/-- From a directory that is deep enough, the path without detours leads to where the path leads,
exactly when the path starts at the root or leads up at most once before it leads down. Taking
detours away again changes nothing. -/
theorem walk_normalize_iff (path : String) (base : List String) (h : climbs path ≤ base.length) :
    (walk base (normalize path) = walk base path ↔ isAbsolute path = true ∨ (way path).ups ≤ 1) ∧
      normalize (normalize path) = normalize path := by
  refine ⟨?_, normalize_normalize path⟩
  rw [walk_eq_arrive, walk_eq_arrive, isAbsolute_normalize, way_normalize]
  by_cases habs : isAbsolute path = true
  · simp [habs, Way.arrive]
  · have hups := Nat.le_trans (ups_way_le path) h
    rw [if_neg habs, Way.arrive, Way.arrive, List.append_left_inj]
    constructor
    · intro heq
      have hlen := congrArg List.length heq
      simp only [List.length_take] at hlen
      exact .inr (by omega)
    · rintro (hroot | hle)
      · exact absurd hroot habs
      · rw [Nat.mod_eq_of_lt (by omega)]

/-- One `..` in front stays, and one behind a name goes with it. -/
theorem sibling_path_keeps_place :
    climbs "../button/./x/../y.tsx" ≤ ["src", "card"].length ∧
      (way "../button/./x/../y.tsx").ups ≤ 1 ∧
      walk ["src", "card"] (normalize "../button/./x/../y.tsx") =
        walk ["src", "card"] "../button/./x/../y.tsx" ∧
      normalize (normalize "../button/./x/../y.tsx") = normalize "../button/./x/../y.tsx" := by
  have hclimbs : climbs "../button/./x/../y.tsx" ≤ ["src", "card"].length := by decide
  have hups : (way "../button/./x/../y.tsx").ups ≤ 1 := by decide
  have h := walk_normalize_iff "../button/./x/../y.tsx" ["src", "card"] hclimbs
  exact ⟨hclimbs, hups, h.1.2 (.inr hups), h.2⟩

/-- Two `..` in front are lost together, so the path leads into the directory itself. -/
theorem second_climb_takes_back_first :
    climbs "../../x" ≤ ["src", "card"].length ∧ walk ["src", "card"] "../../x" = ["x"] ∧
      walk ["src", "card"] (normalize "../../x") = ["src", "card", "x"] := by
  decide

end JsxToJinja.Path
