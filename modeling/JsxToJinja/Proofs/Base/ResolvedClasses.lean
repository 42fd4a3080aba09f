import JsxToJinja.Base.Resolve

/-! The classes of a mapped base component: its own ones and those that each property adds. -/
namespace JsxToJinja

namespace Dict

theorem mem_insert_self (key : String) (value : α) (dict : Dict α) :
    (key, value) ∈ insert key value dict := by
  induction dict with
  | nil => simp [insert]
  | cons e rest ih =>
    rw [insert]
    split
    · simp
    · split
      · simp
      · simp [ih]

theorem mem_of_mem_insert {key : String} {value : α} {dict : Dict α} {e : String × α}
    (h : e ∈ insert key value dict) : e = (key, value) ∨ e ∈ dict := by
  induction dict with
  | nil => simpa [insert] using h
  | cons x rest ih =>
    rw [insert] at h
    split at h
    · simpa using h
    · split at h
      · rcases List.mem_cons.1 h with rfl | h
        · exact .inl rfl
        · exact .inr (by simp [h])
      · rcases List.mem_cons.1 h with rfl | h
        · exact .inr (by simp)
        · exact (ih h).imp_right fun h => by simp [h]

theorem mem_insert_of_ne {key : String} {value : α} {dict : Dict α} {e : String × α}
    (h : e ∈ dict) (hne : e.1 ≠ key) : e ∈ insert key value dict := by
  induction dict with
  | nil => cases h
  | cons x rest ih =>
    rw [insert]
    split
    · simp [List.mem_cons.1 h]
    · split
      · rename_i heq
        rcases List.mem_cons.1 h with rfl | h
        · exact absurd (beq_iff_eq.1 heq).symm hne
        · simp [h]
      · rcases List.mem_cons.1 h with rfl | h
        · simp
        · simp [ih h]

theorem mem_of_mem_union {dict other : Dict α} {e : String × α} (h : e ∈ union dict other) :
    e ∈ dict ∨ e ∈ other := by
  rw [union] at h
  induction other generalizing dict with
  | nil => exact .inl h
  | cons x rest ih =>
    rcases ih h with h | h
    · rcases mem_of_mem_insert h with rfl | h
      · exact .inr (by simp)
      · exact .inl h
    · exact .inr (by simp [h])

theorem mem_of_mem_ofList {entries : List (String × α)} {e : String × α} (h : e ∈ ofList entries) :
    e ∈ entries :=
  (mem_of_mem_union h).resolve_left (by simp)

private theorem mem_foldl_insert_of_unique {entries : List (String × α)} {acc : Dict α}
    {e : String × α} (hu : ∀ x ∈ entries, x.1 = e.1 → x = e) (h : e ∈ acc ∨ e ∈ entries) :
    e ∈ entries.foldl (fun acc (k, v) => insert k v acc) acc := by
  induction entries generalizing acc with
  | nil => simpa using h
  | cons x rest ih =>
    apply ih fun y hy => hu y (by simp [hy])
    by_cases hx : x.1 = e.1
    · rw [← hu x (by simp) hx]
      exact .inl (mem_insert_self _ _ _)
    · rcases h with h | h
      · exact .inl (mem_insert_of_ne h (Ne.symm hx))
      · rcases List.mem_cons.1 h with rfl | h
        · exact absurd rfl hx
        · exact .inr h

/-- An entry whose name comes with no other value is kept. -/
theorem mem_ofList_of_unique {entries : List (String × α)} {e : String × α}
    (hu : ∀ x ∈ entries, x.1 = e.1 → x = e) (h : e ∈ entries) : e ∈ ofList entries :=
  mem_foldl_insert_of_unique hu (.inr h)

private theorem insert_behind {k : String} (v : α) {dict : Dict α} (h : ∀ e ∈ dict, e.1 < k) :
    insert k v dict = dict ++ [(k, v)] := by
  induction dict with
  | nil => rfl
  | cons e rest ih =>
    have he : e.1 < k := h e (by simp)
    have hne : ¬ (k == e.1) = true := by
      rw [beq_iff_eq]
      rintro rfl
      exact String.lt_irrefl _ he
    rw [insert, if_neg (String.lt_asymm he), if_neg hne, ih fun x hx => h x (by simp [hx])]
    rfl

/-- Insertion keeps a table sorted, whether it replaces an entry or adds one. -/
theorem sorted_insert {key : String} {value : α} {dict : Dict α}
    (h : dict.Pairwise fun e f => e.1 < f.1) :
    (insert key value dict).Pairwise fun e f => e.1 < f.1 := by
  induction dict with
  | nil => simp [insert]
  | cons e rest ih =>
    obtain ⟨hhead, hrest⟩ := List.pairwise_cons.1 h
    rw [insert]
    split
    · rename_i hlt
      refine List.pairwise_cons.2 ⟨fun x hx => ?_, h⟩
      rcases List.mem_cons.1 hx with rfl | hx
      · exact hlt
      · exact String.lt_trans hlt (hhead x hx)
    · rename_i hle
      split
      · rename_i heq
        rw [beq_iff_eq] at heq
        exact List.pairwise_cons.2 ⟨fun x hx => by rw [heq]; exact hhead x hx, hrest⟩
      · rename_i hne
        have hlt : e.1 < key := Classical.byContradiction fun hge =>
          hne (beq_iff_eq.2 (String.le_antisymm (String.not_lt.1 hge) (String.not_lt.1 hle)))
        refine List.pairwise_cons.2 ⟨fun x hx => ?_, ih hrest⟩
        rcases mem_of_mem_insert hx with rfl | hx
        · exact hlt
        · exact hhead x hx

theorem sorted_union {dict : Dict α} (h : dict.Pairwise fun e f => e.1 < f.1) (other : Dict α) :
    (union dict other).Pairwise fun e f => e.1 < f.1 := by
  rw [union]
  induction other generalizing dict with
  | nil => exact h
  | cons e rest ih => exact ih (sorted_insert h)

theorem sorted_ofList (entries : List (String × α)) :
    (ofList entries).Pairwise fun e f => e.1 < f.1 :=
  sorted_union .nil entries

theorem nodup_keys {dict : Dict α} (h : dict.Pairwise fun e f => e.1 < f.1) : (keys dict).Nodup :=
  List.pairwise_map.2 (h.imp fun {e f} (hlt : e.1 < f.1) (he : e.1 = f.1) =>
    String.lt_irrefl f.1 (he ▸ hlt))

/-- Entries that are sorted already stay as they are. -/
theorem ofList_of_sorted {entries : List (String × α)}
    (h : entries.Pairwise fun e f => e.1 < f.1) : ofList entries = entries := by
  have hfold (acc rest : List (String × α)) (h : (acc ++ rest).Pairwise fun e f => e.1 < f.1) :
      rest.foldl (fun acc (k, v) => insert k v acc) acc = acc ++ rest := by
    induction rest generalizing acc with
    | nil => simp
    | cons e rest ih =>
      have hbehind : ∀ x ∈ acc, x.1 < e.1 := fun x hx =>
        (List.pairwise_append.1 h).2.2 x hx e (by simp)
      obtain ⟨k, v⟩ := e
      simp only [List.foldl_cons, insert_behind v hbehind]
      rw [ih (acc ++ [(k, v)]) (by simpa using h), List.append_assoc, List.singleton_append]
  simpa [ofList] using hfold [] entries h

end Dict

def ComponentMapping.added (mapping : ComponentMapping) (prop : String) (value : Json) :
    List String :=
  match Dict.get? mapping.props prop with
  | some (.values effects) => ((Dict.get? effects (literalKey value)).map (·.classes)).getD []
  | some (.boolean whenTrue whenFalse) => (if value.isTruthy then whenTrue else whenFalse).classes
  | _ => []

theorem ComponentMapping.added_of_unmapped {mapping : ComponentMapping} {prop : String}
    (h : Dict.get? mapping.props prop = none) (value : Json) : mapping.added prop value = [] := by
  simp [added, h]

namespace BaseResolution

theorem mem_classes_addProp {mapping : ComponentMapping} {r : BaseResolution}
    {entry : String × Json} {c : String} :
    c ∈ (addProp mapping r entry).classes ↔
      c ∈ r.classes ∨ c ∈ mapping.added entry.1 entry.2 := by
  obtain ⟨prop, value⟩ := entry
  simp only [addProp, ComponentMapping.added]
  split <;> rename_i hm
  · by_cases hp : passesThrough prop = true <;> simp [hm, hp]
  · split <;> rename_i he
    · simp [hm, he, addEffect, mem_appendNew]
    · simp [hm, he]
  · simp [hm, addEffect, mem_appendNew]
  · simp [hm]

/-- A mapped component has its own classes and those that its properties add. -/
theorem mem_classes_ofMapping {mapping : ComponentMapping} {props : Fields} {c : String} :
    c ∈ (ofMapping mapping props).classes ↔
      c ∈ mapping.classes ∨ ∃ e ∈ props, c ∈ mapping.added e.1 e.2 := by
  have hfold (r : BaseResolution) : c ∈ (props.foldl (addProp mapping) r).classes ↔
      c ∈ r.classes ∨ ∃ e ∈ props, c ∈ mapping.added e.1 e.2 := by
    induction props generalizing r with
    | nil => simp
    | cons e rest ih =>
      rw [List.foldl_cons, ih, mem_classes_addProp, or_assoc]
      simp
  exact hfold _

end BaseResolution

end JsxToJinja
