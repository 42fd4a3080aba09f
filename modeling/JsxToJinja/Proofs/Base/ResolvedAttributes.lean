import JsxToJinja.Project.Workspace
import JsxToJinja.Proofs.Json.Values

/-! The attributes of a resolved base component. They are kept in the order of their names, so no name
comes twice. -/
namespace JsxToJinja

/-- What is read as a table from JSON is sorted, also when the field is missing. -/
theorem Json.Written.sorted_of_orDefault {α : Type} {read : Json.Written → Option α}
    {field : Option Json.Written} {dict : Dict α}
    (h : orDefault [] (dict? read) field = some dict) : dict.Pairwise fun e f => e.1 < f.1 := by
  cases field with
  | none =>
    cases h
    exact .nil
  | some v =>
    cases v with
    | obj fields =>
      obtain ⟨entries, -, rfl⟩ := Option.map_eq_some_iff.1 h
      exact Dict.sorted_ofList entries
    | _ => cases h

theorem Json.Written.exists_of_mem_dict? {α : Type} {read : Json.Written → Option α}
    {v : Json.Written} {dict : Dict α} (h : dict? read v = some dict) {e : String × α}
    (he : e ∈ dict) : ∃ w, read w = some e.2 := by
  cases v with
  | obj fields =>
    obtain ⟨entries, hentries, rfl⟩ := Option.map_eq_some_iff.1 h
    obtain ⟨f, -, hf⟩ := Json.exists_of_mem_mapM hentries (Dict.mem_of_mem_ofList he)
    obtain ⟨a, ha, rfl⟩ := Option.map_eq_some_iff.1 hf
    exact ⟨f.2, ha⟩
  | _ => cases h

namespace Detected

theorem sorted_addProperty {e : DetectedElement}
    (h : e.attributes.Pairwise fun a b => a.1 < b.1) (entry : List Char) :
    (addProperty e entry).attributes.Pairwise fun a b => a.1 < b.1 := by
  rw [addProperty]
  split
  · exact h
  · split
    · exact h
    · dsimp only
      split
      · exact h
      · split
        · exact h
        · split
          · exact Dict.sorted_insert h
          · exact h

theorem sorted_of_mem_elementsOf {t : List Char} {e : DetectedElement} (h : e ∈ elementsOf t) :
    e.attributes.Pairwise fun a b => a.1 < b.1 := by
  have hfold (entries : List (List Char)) (e : DetectedElement)
      (he : e.attributes.Pairwise fun a b => a.1 < b.1) :
      (entries.foldl addProperty e).attributes.Pairwise fun a b => a.1 < b.1 := by
    induction entries generalizing e with
    | nil => exact he
    | cons entry rest ih => exact ih _ (sorted_addProperty he entry)
  obtain ⟨m, -, hm⟩ := List.mem_filterMap.1 h
  obtain ⟨object, -, rfl⟩ := Option.map_eq_some_iff.1 hm
  exact hfold _ _ .nil

/-- The primary element is one of those that are found. -/
theorem primary_mem_of_ofElements {name : String} {elements : List DetectedElement} {d : Detected}
    (h : ofElements name elements = some d) : d.primary ∈ elements := by
  rw [ofElements] at h
  rw [← List.mem_reverse]
  split at h
  · rename_i primary before hsome
    cases h
    exact (List.dropWhile_sublist _).subset (hsome ▸ List.mem_cons_self)
  · split at h
    · rename_i primary before hsome
      cases h
      rw [hsome]
      exact List.mem_cons_self
    · cases h

theorem sorted_primary {dist : List Char} {name : String} {d : Detected}
    (h : ofDistribution? dist name = some d) :
    d.primary.attributes.Pairwise fun a b => a.1 < b.1 := by
  obtain ⟨t, -, hd⟩ := Option.bind_eq_some_iff.1 h
  exact sorted_of_mem_elementsOf (primary_mem_of_ofElements hd)

end Detected

namespace BaseResolution

theorem sorted_addProp (mapping : ComponentMapping) {r : BaseResolution}
    (h : r.attributes.Pairwise fun a b => a.1 < b.1) (entry : String × Json) :
    (addProp mapping r entry).attributes.Pairwise fun a b => a.1 < b.1 := by
  rw [addProp]
  split
  · split
    · exact h
    · exact h
  · split
    · exact Dict.sorted_union h _
    · exact h
  · exact Dict.sorted_union h _
  · exact Dict.sorted_insert h

theorem sorted_ofMapping {mapping : ComponentMapping}
    (h : mapping.attributes.Pairwise fun a b => a.1 < b.1) (props : Fields) :
    (ofMapping mapping props).attributes.Pairwise fun a b => a.1 < b.1 := by
  have hfold (r : BaseResolution) (hr : r.attributes.Pairwise fun a b => a.1 < b.1) :
      (props.foldl (addProp mapping) r).attributes.Pairwise fun a b => a.1 < b.1 := by
    induction props generalizing r with
    | nil => exact hr
    | cons entry rest ih => exact ih _ (sorted_addProp mapping hr entry)
  exact hfold _ h

end BaseResolution

namespace BaseLibrary

/-- Every mapping of a table has its attributes in order. -/
def TableSorted (table : MappingTable) : Prop :=
  ∀ entry ∈ table, ∀ component ∈ entry.2,
    component.2.attributes.Pairwise fun a b => a.1 < b.1

instance (table : MappingTable) : Decidable (TableSorted table) :=
  inferInstanceAs (Decidable (∀ entry ∈ table, ∀ component ∈ entry.2,
    component.2.attributes.Pairwise fun a b => a.1 < b.1))

theorem tableSorted_builtin : TableSorted Builtin.table := by decide

theorem mem_of_get? {α : Type} {dict : Dict α} {key : String} {value : α}
    (h : Dict.get? dict key = some value) : (key, value) ∈ dict := by
  obtain ⟨e, he, rfl⟩ := Option.map_eq_some_iff.1 h
  have hkey : e.1 = key := by simpa using List.find?_some he
  rw [← hkey]
  exact List.mem_of_find?_eq_some he

/-- From a sorted table components are resolved with sorted attributes. -/
theorem sorted_resolve {library : BaseLibrary} (h : TableSorted library.mappings)
    (name component : String) (props : Fields) :
    (library.resolve name component props).attributes.Pairwise fun a b => a.1 < b.1 := by
  rw [resolve]
  split
  · rename_i mapping hmapping
    obtain ⟨components, hcomponents, hcomponent⟩ := Option.bind_eq_some_iff.1 hmapping
    exact BaseResolution.sorted_ofMapping (h _ (mem_of_get? hcomponents) _ (mem_of_get? hcomponent)) props
  · split
    · rename_i d hd
      rw [detected?] at hd
      split at hd
      · obtain ⟨dist, -, hd⟩ := Option.bind_eq_some_iff.1 hd
        exact Detected.sorted_primary hd
      · cases hd
    · exact .nil

/-- A table stays sorted when components with sorted attributes come in. -/
theorem tableSorted_addComponents {table : MappingTable} (h : TableSorted table)
    {entry : String × Dict ComponentMapping}
    (hentry : ∀ component ∈ entry.2, component.2.attributes.Pairwise fun a b => a.1 < b.1) :
    TableSorted (addComponents table entry) := by
  intro e he
  rcases Dict.mem_of_mem_insert he with rfl | he
  · intro component hcomponent
    rcases Dict.mem_of_mem_union hcomponent with hold | hnew
    · cases hknown : Dict.get? table entry.1 with
      | none =>
        rw [hknown] at hold
        cases hold
      | some components =>
        rw [hknown] at hold
        exact h _ (mem_of_get? hknown) _ hold
    · exact hentry _ hnew
  · exact h e he

theorem sorted_of_ofWritten? {v : Json.Written} {mapping : ComponentMapping}
    (h : ComponentMapping.ofWritten? v = some mapping) :
    mapping.attributes.Pairwise fun a b => a.1 < b.1 := by
  simp only [ComponentMapping.ofWritten?, Option.bind_eq_bind, Option.bind_eq_some_iff] at h
  obtain ⟨_, -, _, -, _, -, _, -, _, hattributes, _, -, _, -, hmapping⟩ := h
  cases hmapping
  exact Json.Written.sorted_of_orDefault hattributes

theorem tableSorted_ofWritten? {v : Json.Written} {table : MappingTable}
    (h : MappingTable.ofWritten? v = some table) : TableSorted table := by
  intro entry hentry component hcomponent
  obtain ⟨w, hw⟩ := Json.Written.exists_of_mem_dict? h hentry
  obtain ⟨w', hw'⟩ := Json.Written.exists_of_mem_dict? hw hcomponent
  exact sorted_of_ofWritten? hw'

/-- The mappings of a project are the known ones and those of a file, so they are in order. -/
theorem tableSorted_of_make {root : String} {config : Config} {tree : FileTree} {p : Project}
    (h : Project.make root config tree = .ok p) : TableSorted p.library.mappings := by
  have hpackages (packages : String) :
      (({} : BaseLibrary).withPackages packages tree).mappings = Builtin.table := by
    rw [withPackages]
    dsimp only
    split <;> rfl
  rw [Project.make] at h
  split at h
  · cases h
    rw [hpackages]
    exact tableSorted_builtin
  · split at h
    · rename_i library hfile
      cases h
      rw [withMappingsFile] at hfile
      split at hfile
      · cases hfile
      · split at hfile
        · cases hfile
        · rename_i extra hread
          cases hfile
          obtain ⟨v, -, hextra⟩ := Option.bind_eq_some_iff.1 hread
          have hfold (entries : MappingTable) (hentries : TableSorted entries) (table : MappingTable)
              (htable : TableSorted table) : TableSorted (entries.foldl addComponents table) := by
            induction entries generalizing table with
            | nil => exact htable
            | cons entry rest ih =>
              exact ih (fun e he => hentries e (List.mem_cons_of_mem _ he)) _
                (tableSorted_addComponents htable (hentries entry List.mem_cons_self))
          refine hfold _ (tableSorted_ofWritten? hextra) _ ?_
          rw [hpackages]
          exact tableSorted_builtin
    · cases h

end BaseLibrary

end JsxToJinja
