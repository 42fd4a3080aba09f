import JsxToJinja.Jinja.Names
import JsxToJinja.Proofs.Base.ResolvedClasses
import Mathlib.Data.List.Nodup

/-! Variables of a template. A reserved attribute becomes its name with `_attr`, every other one
keeps its name. The suffix keeps reserved names apart from each other, but not from an attribute
that is spelled with it. -/
namespace JsxToJinja
namespace NameMap

/-- Every new name is the old one with the suffix, without underscores behind it. -/
def Suffixed (names : NameMap) : Prop := ∀ e ∈ names.renames, e.2 = e.1 ++ "_attr"

theorem not_isReserved_suffixed {name : String} (h : isReserved name = true) :
    isReserved (name ++ "_attr") = false := by
  have all : ∀ r ∈ reservedNames, isReserved (r ++ "_attr") = false := by decide
  exact all name (List.contains_iff_mem.1 h)

theorem fresh_eq_self {taken : List String} {name : String} (hr : isReserved name = false)
    (ht : name ∉ taken) (fuel : Nat) : fresh taken fuel name = name := by
  cases fuel <;> simp [fresh, hr, ht]

/-! ### One declaration -/

theorem declare_of_not {names : NameMap} {name : String}
    (h : isReserved name = false ∨ names.isRenamed name = true) : names.declare name = names := by
  rw [declare, if_pos]
  simpa [isRenamed] using h

/-- The name with the suffix is free: another of the same spelling would be a rename of the same
name. -/
theorem Suffixed.renames_declare {names : NameMap} (h : names.Suffixed) {name : String}
    (hr : isReserved name = true) (hn : names.isRenamed name = false) :
    (names.declare name).renames = Dict.insert name (name ++ "_attr") names.renames := by
  have free : name ++ "_attr" ∉ names.renames.map (·.2) := by
    intro hmem
    obtain ⟨e, he, heq⟩ := List.mem_map.1 hmem
    have hkey : e.1 = name := (String.append_left_inj "_attr").1 ((h e he).symm.trans heq)
    have renamed : names.isRenamed name = true := by
      rw [isRenamed, Dict.has, Dict.get?, Option.isSome_map, List.find?_isSome]
      exact ⟨e, he, beq_iff_eq.2 hkey⟩
    exact Bool.false_ne_true (hn.symm.trans renamed)
  rw [isRenamed] at hn
  simp only [declare, hr, hn, Bool.not_true, Bool.or_self, Bool.false_eq_true, if_false]
  rw [fresh_eq_self (not_isReserved_suffixed hr) free]

/-- A declaration keeps every new name the old one with its suffix. -/
theorem Suffixed.declare {names : NameMap} (h : names.Suffixed) (name : String) :
    (names.declare name).Suffixed := by
  cases hr : isReserved name with
  | false => rwa [declare_of_not (.inl hr)]
  | true =>
    cases hn : names.isRenamed name with
    | true => rwa [declare_of_not (.inr hn)]
    | false =>
      rw [Suffixed, h.renames_declare hr hn]
      intro e he
      obtain rfl | he := Dict.mem_of_mem_insert he
      · rfl
      · exact h e he

theorem Suffixed.isRenamed_declare {names : NameMap} (h : names.Suffixed) (name other : String) :
    (names.declare name).isRenamed other = true ↔
      names.isRenamed other = true ∨ other = name ∧ isReserved name = true := by
  cases hr : isReserved name with
  | false => simp [declare_of_not (.inl hr)]
  | true =>
    cases hn : names.isRenamed name with
    | true =>
      rw [declare_of_not (.inr hn)]
      exact ⟨.inl, fun h => h.elim id fun h => h.1 ▸ hn⟩
    | false =>
      rw [isRenamed, isRenamed, h.renames_declare hr hn, Dict.has, Dict.has]
      by_cases he : other = name
      · simp [he]
      · simp [Dict.get?_insert_of_ne _ _ he, he]

/-- A variable is called like its attribute, or like the attribute with the suffix. -/
theorem Suffixed.resolve {names : NameMap} (h : names.Suffixed) (name : String) :
    names.resolve name = if names.isRenamed name then name ++ "_attr" else name := by
  rw [NameMap.resolve, isRenamed, Dict.has, Dict.get?]
  cases hf : names.renames.find? (·.1 == name) with
  | none => rfl
  | some e =>
    have hkey : e.1 = name := by simpa using List.find?_some hf
    rw [Option.map_some, Option.getD_some, h e (List.mem_of_find?_eq_some hf), hkey]
    rfl

/-! ### All declarations -/

/-- After all declarations just the reserved ones have new names. -/
theorem Suffixed.foldl_declare {names : NameMap} (h : names.Suffixed) (declared : List String) :
    (declared.foldl NameMap.declare names).Suffixed ∧
      ∀ name, (declared.foldl NameMap.declare names).isRenamed name = true ↔
        names.isRenamed name = true ∨ name ∈ declared ∧ isReserved name = true := by
  induction declared generalizing names with
  | nil => exact ⟨h, fun name => by simp⟩
  | cons first rest ih =>
    obtain ⟨suffixed, renamed⟩ := ih (h.declare first)
    refine ⟨suffixed, fun name => ?_⟩
    rw [List.foldl_cons, renamed, h.isRenamed_declare, List.mem_cons]
    grind

/-- The variable of a name among declared ones, in any order. -/
theorem resolve_ofNames (declared : List String) (name : String) :
    (ofNames declared).resolve name =
      if name ∈ declared ∧ isReserved name = true then name ++ "_attr" else name := by
  have start : Suffixed {} := fun e he => by cases he
  obtain ⟨suffixed, renamed⟩ := start.foldl_declare declared
  have := renamed name
  rw [ofNames, suffixed.resolve]
  grind [isRenamed, Dict.has, Dict.get?]

theorem not_isReserved_resolve_ofNames {declared : List String} {name : String}
    (h : name ∈ declared) : isReserved ((ofNames declared).resolve name) = false := by
  rw [resolve_ofNames]
  split
  next hr => exact not_isReserved_suffixed hr.2
  next hr => simpa [h] using hr

/-- Two declared names share a variable only where one is the other one, reserved, with the
suffix. -/
theorem resolve_ofNames_eq_iff {declared : List String} {a b : String} (ha : a ∈ declared)
    (hb : b ∈ declared) (hne : a ≠ b) :
    (ofNames declared).resolve a = (ofNames declared).resolve b ↔
      isReserved a = true ∧ b = a ++ "_attr" ∨ isReserved b = true ∧ a = b ++ "_attr" := by
  rw [resolve_ofNames, resolve_ofNames]
  have not_reserved {x y : String} (hx : isReserved x = true) (hy : y = x ++ "_attr") :
      isReserved y = false := hy ▸ not_isReserved_suffixed hx
  have cancel : a ++ "_attr" = b ++ "_attr" ↔ a = b := String.append_left_inj "_attr"
  grind

/-! ### Attributes -/

/-- No attribute of the list is spelled like the new name of a reserved one. -/
def SuffixFree (names : List String) : Prop :=
  ∀ name ∈ names, isReserved name = true → name ++ "_attr" ∉ names

instance (names : List String) : Decidable (SuffixFree names) := by
  unfold SuffixFree
  infer_instance

/-- Attributes with different names get variables that a template can use, and different ones
exactly when none is spelled like the new name of another. -/
theorem variables_nodup_iff (attributes : List Attribute)
    (h : (attributes.map (·.name)).Nodup) :
    (∀ a ∈ attributes, isReserved ((ofAttributes attributes).resolve a.name) = false) ∧
      ((attributes.map fun a => (ofAttributes attributes).resolve a.name).Nodup ↔
        SuffixFree (attributes.map (·.name))) := by
  refine ⟨fun a ha => not_isReserved_resolve_ofNames (List.mem_map_of_mem ha), ?_⟩
  rw [ofAttributes]
  generalize hn : attributes.map (·.name) = names at h ⊢
  have hmap : (attributes.map fun a => (ofNames names).resolve a.name) =
      names.map (ofNames names).resolve := by
    rw [← hn, List.map_map]
    rfl
  rw [hmap, List.nodup_map_iff_inj_on h]
  constructor
  · intro hinj name hname hr hclash
    have hne : name ≠ name ++ "_attr" := fun he => by
      simpa using congrArg String.length he
    exact hne (hinj name hname _ hclash
      ((resolve_ofNames_eq_iff hname hclash hne).2 (.inl ⟨hr, rfl⟩)))
  · intro hfree a ha b hb heq
    by_contra hne
    obtain ⟨hr, rfl⟩ | ⟨hr, rfl⟩ := (resolve_ofNames_eq_iff ha hb hne).1 heq
    · exact hfree a ha hr hb
    · exact hfree b hb hr ha

/-- Two reserved names, one of them with an attribute beside it that only looks like a new
name. -/
theorem loop_and_label_attr_variables :
    let attributes := ["loop", "label_attr", "for", "label"].map (Attribute.ofType · .string)
    (∀ a ∈ attributes, isReserved ((ofAttributes attributes).resolve a.name) = false) ∧
      (attributes.map fun a => (ofAttributes attributes).resolve a.name).Nodup :=
  have h := variables_nodup_iff (["loop", "label_attr", "for", "label"].map
    (Attribute.ofType · .string)) (by decide)
  ⟨h.1, h.2.2 (by decide)⟩

/-- Two attributes with different names and one variable, in either order. -/
theorem loop_and_loop_attr_share_variable :
    let first := Attribute.ofType "loop" .boolean
    let second := Attribute.ofType "loop_attr" .string
    first.name ≠ second.name ∧
      ∀ attributes ∈ [[first, second], [second, first]],
        (ofAttributes attributes).resolve first.name = "loop_attr" ∧
          (ofAttributes attributes).resolve second.name = "loop_attr" := by
  decide

end NameMap
end JsxToJinja
