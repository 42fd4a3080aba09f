import JsxToJinja.Proofs.Base.ResolvedAttributes
import JsxToJinja.Proofs.Project.Course
import Mathlib.Data.List.Forall2
import Mathlib.Data.List.Nodup

/-! Customized attributes. Each pass either changes attributes in their places or adds new ones behind
them, so the attributes of the code stay in front, and each field is traced to where it was set. -/
namespace JsxToJinja
open Conversion

def attributeNames (attributes : List Attribute) : List String := attributes.map (·.name)

theorem declares_iff {attributes : List Attribute} {name : String} :
    Customization.declares attributes name = true ↔ name ∈ attributeNames attributes := by
  simp [Customization.declares, attributeNames]

namespace Customization

/-- Entries by name are in order, each name once. -/
structure Ordered (c : Customization) : Prop where
  additions : c.additions.Pairwise fun e f => e.1 < f.1
  defaults : c.defaults.Pairwise fun e f => e.1 < f.1

/-- The tokens that are read, if any, stay. -/
def Remembers (w w' : Workspace) : Prop := ∀ table, w.tokens = some table → w'.tokens = some table

theorem Remembers.refl (w : Workspace) : Remembers w w := fun _ h => h

theorem Remembers.trans {w₁ w₂ w₃ : Workspace} (h : Remembers w₁ w₂) (h' : Remembers w₂ w₃) :
    Remembers w₁ w₃ := fun table ht => h' table (h table ht)

def Supplies (dir : String) (w : Workspace) : ValueSource → List String → Prop
  | .items items, values => values = items.map optionText
  | .token reference, values =>
    ∃ table, w.tokens = some table ∧ Token.values dir table reference = .ok values

theorem Supplies.mono {dir : String} {w w' : Workspace} {source : ValueSource} {values : List String}
    (h : Supplies dir w source values) (hw : Remembers w w') : Supplies dir w' source values := by
  cases source with
  | items items => exact h
  | token reference =>
    obtain ⟨table, htable, hvalues⟩ := h
    exact ⟨table, hw table htable, hvalues⟩

/-- Every field of an attribute behind an override and a default for it: a field that they do not set
is as it was. -/
structure Customized (dir : String) (w : Workspace) (o : Option AttributeOverride) (d : Option Json)
    (a b : Attribute) : Prop where
  name : b.name = a.name
  itemType : b.itemType = a.itemType
  required : b.required = (o.bind (·.required)).getD a.required
  description : b.description = (o.bind (·.description)).or a.description
  default : b.default = (d.map .actual).or a.default
  enumValues : match o.bind (·.values) with
    | some source => Supplies dir w source b.enumValues
    | none => b.enumValues = a.enumValues
  types : b.types = match o.bind (·.type) with
    | some type => [type]
    | none =>
      if (o.bind (·.values)).isSome && !a.hasType .enum then .enum :: a.types else a.types

variable {dir : String} {w w' : Workspace} {a b : Attribute}

/-- Without an override and a default nothing changes. -/
theorem Customized.eq_of_none (h : Customized dir w none none a b) : b = a := by
  obtain ⟨hname, hitem, hrequired, hdescription, hdefault, henum, htypes⟩ := h
  cases a
  cases b
  simp only [Option.bind_none, Option.map_none, Option.getD_none, Option.none_or, Option.isSome_none,
    Bool.false_and, Bool.false_eq_true, if_false] at hname hitem hrequired hdescription hdefault henum htypes
  simp only [hname, hitem, hrequired, hdescription, hdefault, henum, htypes]

theorem Customized.mono {o : Option AttributeOverride} {d : Option Json}
    (h : Customized dir w o d a b) (hw : Remembers w w') : Customized dir w' o d a b := by
  refine ⟨h.name, h.itemType, h.required, h.description, h.default, ?_, h.types⟩
  have henum := h.enumValues
  split at henum
  · exact henum.mono hw
  · exact henum

/-! ### Overrides -/

theorem tokens_ok {table : Dict Token} (h : (tokens dir).run.run w = (.ok table, w')) :
    w'.tokens = some table ∧ Remembers w w' := by
  obtain ⟨w₁, w₂, hget, h⟩ := run_bind_ok.1 h
  cases hget
  split at h
  · rename_i found hfound
    cases h
    exact ⟨hfound, .refl w⟩
  · rename_i hnone
    obtain ⟨found, w₃, hload, hstore⟩ := run_bind_ok.1 h
    obtain ⟨-, rfl⟩ := ofExcept_ok hload
    cases hstore
    exact ⟨rfl, fun t ht => absurd ht (by rw [hnone]; simp)⟩

theorem valuesOf_ok {source : ValueSource} {values : List String}
    (h : (valuesOf (tokenValues dir) source).run.run w = (.ok values, w')) :
    Supplies dir w' source values ∧ Remembers w w' := by
  cases source with
  | items items =>
    cases h
    exact ⟨rfl, .refl w⟩
  | token reference =>
    obtain ⟨table, w₁, htable, h⟩ := run_bind_ok.1 h
    obtain ⟨hread, hkeep⟩ := tokens_ok htable
    obtain ⟨hvalues, rfl⟩ := ofExcept_ok h
    exact ⟨⟨table, hread, hvalues⟩, hkeep⟩

/-- An override changes an attribute as the customization says. -/
theorem override_ok {o : AttributeOverride}
    (h : (override (tokenValues dir) o a).run.run w = (.ok b, w')) :
    Customized dir w' (some o) none a b ∧ Remembers w w' := by
  rw [override] at h
  cases hv : o.values with
  | none =>
    rw [hv] at h
    cases h
    refine ⟨⟨rfl, rfl, rfl, rfl, rfl, ?_, ?_⟩, .refl w⟩
    · simp [hv]
    · cases ht : o.type <;> simp [hv, ht]
  | some source =>
    rw [hv] at h
    obtain ⟨values, w₁, hvalues, h⟩ := run_bind_ok.1 h
    obtain ⟨hsupplies, hkeep⟩ := valuesOf_ok hvalues
    cases h
    refine ⟨⟨rfl, rfl, rfl, rfl, rfl, ?_, ?_⟩, hkeep⟩
    · rw [Option.bind_some, hv]
      exact hsupplies
    · cases ht : o.type with
      | none => by_cases he : a.hasType .enum = true <;> simp [hv, ht, setValues, he]
      | some type => simp [ht]

/-- Every attribute is changed by the override of its name, if there is one. -/
theorem overrideAll_ok {overrides : Dict AttributeOverride} {attributes kept : List Attribute}
    (h : (overrideAll (tokenValues dir) overrides attributes).run.run w = (.ok kept, w')) :
    List.Forall₂ (fun a b => Customized dir w' (Dict.get? overrides a.name) none a b) attributes kept ∧
      Remembers w w' := by
  induction attributes generalizing w kept with
  | nil =>
    cases h
    exact ⟨.nil, .refl _⟩
  | cons a rest ih =>
    rw [overrideAll] at h
    have hone : ∃ b w₁, Customized dir w₁ (Dict.get? overrides a.name) none a b ∧ Remembers w w₁ ∧
        ∃ others, (overrideAll (tokenValues dir) overrides rest).run.run w₁ = (.ok others, w') ∧
          kept = b :: others := by
      cases ho : Dict.get? overrides a.name with
      | none =>
        rw [ho] at h
        obtain ⟨b, w₁, hb, h⟩ := run_bind_ok.1 h
        cases hb
        obtain ⟨others, w₂, hrest, h⟩ := run_bind_ok.1 h
        cases h
        exact ⟨a, _, ⟨rfl, rfl, rfl, rfl, rfl, rfl, rfl⟩, .refl _, others, hrest, rfl⟩
      | some o =>
        rw [ho] at h
        obtain ⟨b, w₁, hb, h⟩ := run_bind_ok.1 h
        obtain ⟨hcustomized, hkeep⟩ := override_ok hb
        obtain ⟨others, w₂, hrest, h⟩ := run_bind_ok.1 h
        cases h
        exact ⟨b, w₁, hcustomized, hkeep, others, hrest, rfl⟩
    obtain ⟨b, w₁, hcustomized, hkeep, others, hrest, rfl⟩ := hone
    obtain ⟨hall, hkeep'⟩ := ih hrest
    exact ⟨.cons (hcustomized.mono hkeep') hall, hkeep.trans hkeep'⟩

/-! ### New attributes -/

/-- Adding names that are not there, each once. -/
theorem nodup_append_new {names more : List String} (h : names.Nodup) (hmore : more.Nodup)
    (hnew : ∀ n ∈ more, n ∉ names) : (names ++ more).Nodup :=
  List.nodup_append.2 ⟨h, hmore, fun _ hn m hm he => hnew m hm (he ▸ hn)⟩

theorem filter_notMem_concat (taken : List String) (name : String) (more : List String) :
    more.filter (· ∉ taken ++ [name]) = (more.filter (· ∉ taken)).filter fun n => !n == name := by
  rw [List.filter_filter]
  refine List.filter_congr fun n _ => ?_
  by_cases h : n = name <;> simp [h]

theorem attributeNames_cons (a : Attribute) (attributes : List Attribute) :
    attributeNames (a :: attributes) = a.name :: attributeNames attributes := rfl

theorem attributeNames_append (front behind : List Attribute) :
    attributeNames (front ++ behind) = attributeNames front ++ attributeNames behind :=
  List.map_append

theorem attributeNames_concat (attributes : List Attribute) (a : Attribute) :
    attributeNames (attributes ++ [a]) = attributeNames attributes ++ [a.name] :=
  attributeNames_append attributes [a]

theorem nodup_eraseDups (names : List String) : names.eraseDups.Nodup := by
  induction hlen : names.length using Nat.strongRecOn generalizing names with
  | ind k ih =>
    subst hlen
    cases names with
    | nil => exact List.nodup_nil
    | cons n rest =>
      have hshort : (rest.filter fun m => !m == n).length < (n :: rest).length :=
        Nat.lt_succ_of_le (List.length_filter_le _ _)
      rw [List.eraseDups_cons]
      refine List.nodup_cons.2 ⟨?_, ih _ hshort _ rfl⟩
      rw [List.mem_eraseDups]
      simp

theorem addition_ok {name : String} {spec : AttributeAddition}
    (h : (addition (tokenValues dir) name spec).run.run w = (.ok b, w')) :
    b.name = name ∧ Remembers w w' := by
  rw [addition] at h
  split at h
  · obtain ⟨values, w₁, hvalues, h⟩ := run_bind_ok.1 h
    obtain ⟨-, hkeep⟩ := valuesOf_ok hvalues
    cases h
    exact ⟨rfl, hkeep⟩
  · cases h
    exact ⟨rfl, .refl _⟩

/-- Additions come behind the attributes, but for names that are taken. -/
theorem addAll_ok {additions : Dict AttributeAddition} {attributes out : List Attribute}
    (hkeys : (Dict.keys additions).Nodup)
    (h : (addAll (tokenValues dir) additions attributes).run.run w = (.ok out, w')) :
    ∃ added, out = attributes ++ added ∧
      attributeNames added = (Dict.keys additions).filter (· ∉ attributeNames attributes) ∧
      Remembers w w' := by
  induction additions generalizing w attributes with
  | nil =>
    cases h
    exact ⟨[], (List.append_nil _).symm, rfl, .refl _⟩
  | cons entry rest ih =>
    obtain ⟨name, spec⟩ := entry
    obtain ⟨hnew, hrest⟩ := List.nodup_cons.1 hkeys
    rw [addAll] at h
    split at h
    · rename_i hin
      rw [declares_iff] at hin
      obtain ⟨added, hout, hnames, hkeep⟩ := ih hrest h
      refine ⟨added, hout, ?_, hkeep⟩
      rw [hnames, Dict.keys, Dict.keys, List.map_cons, List.filter_cons_of_neg (by simpa using hin)]
    · rename_i hout
      rw [declares_iff] at hout
      obtain ⟨b, w₁, hb, h⟩ := run_bind_ok.1 h
      obtain ⟨hname, hkeep⟩ := addition_ok hb
      obtain ⟨added, rfl, hnames, hkeep'⟩ := ih hrest h
      refine ⟨b :: added, by simp, ?_, hkeep.trans hkeep'⟩
      have hothers : ((Dict.keys rest).filter (· ∉ attributeNames attributes)).filter
          (fun n => !n == name) = (Dict.keys rest).filter (· ∉ attributeNames attributes) := by
        refine List.filter_eq_self.2 fun n hn => ?_
        have hne : n ≠ name := by
          rintro rfl
          exact hnew (List.mem_filter.1 hn).1
        simpa using hne
      rw [attributeNames_cons, hnames, attributeNames_concat, hname, filter_notMem_concat, hothers, Dict.keys, Dict.keys, List.map_cons,
        List.filter_cons_of_pos (by simpa using hout)]

theorem addContent_eq (childrenSupport : Bool) (attributes : List Attribute) :
    ∃ added, addContent childrenSupport attributes = attributes ++ added ∧
      attributeNames added = if childrenSupport = true ∧ "content" ∉ attributeNames attributes then
        ["content"] else [] := by
  rw [addContent]
  by_cases h : childrenSupport = true ∧ "content" ∉ attributeNames attributes
  · rw [if_pos (by simpa [← declares_iff] using h), if_pos h]
    exact ⟨[contentAttribute], rfl, rfl⟩
  · rw [if_neg (by simpa [← declares_iff] using h), if_neg h]
    exact ⟨[], (List.append_nil _).symm, rfl⟩

/-- Attributes that are passed through come behind the others, each name once. -/
theorem addPassThrough_eq (specs : List PassThroughSpec) (attributes : List Attribute) :
    ∃ added, specs.foldl addPassThrough attributes = attributes ++ added ∧
      attributeNames added =
        ((specs.map (·.name)).filter (· ∉ attributeNames attributes)).eraseDups := by
  induction specs generalizing attributes with
  | nil => exact ⟨[], (List.append_nil _).symm, rfl⟩
  | cons spec rest ih =>
    rw [List.foldl_cons, addPassThrough]
    split
    · rename_i hin
      rw [declares_iff] at hin
      obtain ⟨added, hout, hnames⟩ := ih attributes
      refine ⟨added, hout, ?_⟩
      rw [hnames, List.map_cons, List.filter_cons_of_neg (by simpa using hin)]
    · rename_i hout
      rw [declares_iff] at hout
      obtain ⟨added, hfold, hnames⟩ := ih (attributes ++ [{ Attribute.ofType spec.name
        (spec.type.getD .string) with
          required := spec.required
          default := spec.default.map .actual }])
      refine ⟨_ :: added, by rw [hfold, List.append_assoc, List.singleton_append], ?_⟩
      rw [attributeNames_cons, hnames, attributeNames_concat, filter_notMem_concat, List.map_cons, List.filter_cons_of_pos (by simpa using hout),
        List.eraseDups_cons]
      rfl

/-! ### Defaults -/

def withDefault (defaults : Fields) (a : Attribute) : Attribute :=
  match Dict.get? defaults a.name with
  | some v => { a with default := some (.actual v) }
  | none => a

@[simp] theorem withDefault_name (defaults : Fields) (a : Attribute) :
    (withDefault defaults a).name = a.name := by
  rw [withDefault]
  split <;> rfl

theorem attributeNames_withDefault (defaults : Fields) (attributes : List Attribute) :
    attributeNames (attributes.map (withDefault defaults)) = attributeNames attributes := by
  rw [attributeNames, List.map_map]
  exact List.map_congr_left fun a _ => withDefault_name defaults a

theorem withDefault_of_ne {defaults : Fields} {a : Attribute} (h : a.name ∉ Dict.keys defaults) :
    withDefault defaults a = a := by
  have hnone : Dict.get? defaults a.name = none := by
    rw [Dict.get?, Option.map_eq_none_iff, List.find?_eq_none]
    intro e he hname
    exact h (beq_iff_eq.1 hname ▸ List.mem_map.2 ⟨e, he, rfl⟩)
  rw [withDefault, hnone]

/-- With distinct names a default reaches the attribute of its name alone. -/
theorem setDefault_eq {attributes : List Attribute} (h : (attributeNames attributes).Nodup)
    (entry : String × Json) :
    setDefault attributes entry = attributes.map (withDefault [entry]) := by
  obtain ⟨name, value⟩ := entry
  induction attributes with
  | nil => rfl
  | cons a rest ih =>
    obtain ⟨hnew, hrest⟩ := List.nodup_cons.1 h
    rw [setDefault, List.map_cons]
    by_cases ha : a.name = name
    · have hsame : rest.map (withDefault [(name, value)]) = rest := by
        refine (List.map_congr_left fun b hb => withDefault_of_ne ?_).trans (List.map_id rest)
        have hne : b.name ≠ name := by
          rintro rfl
          exact hnew (List.mem_map.2 ⟨b, hb, ha.symm⟩)
        simpa [Dict.keys] using hne
      rw [if_pos (beq_iff_eq.2 ha), hsame]
      simp [withDefault, Dict.get?, ha]
    · rw [if_neg (by simpa using ha), ih hrest, withDefault_of_ne (by simpa [Dict.keys] using ha)]

theorem withDefault_cons {entry : String × Json} {rest : Fields} (h : entry.1 ∉ Dict.keys rest)
    (a : Attribute) : withDefault rest (withDefault [entry] a) = withDefault (entry :: rest) a := by
  obtain ⟨name, value⟩ := entry
  by_cases ha : a.name = name
  · subst ha
    rw [withDefault_of_ne (by simpa using h)]
    simp [withDefault, Dict.get?]
  · have hone : withDefault [(name, value)] a = a := withDefault_of_ne (by simpa [Dict.keys] using ha)
    rw [hone, withDefault, withDefault, Dict.get?_cons, if_neg (Ne.symm ha)]

theorem foldl_setDefault {attributes : List Attribute} (h : (attributeNames attributes).Nodup)
    {defaults : Fields} (hkeys : (Dict.keys defaults).Nodup) :
    defaults.foldl setDefault attributes = attributes.map (withDefault defaults) := by
  induction defaults generalizing attributes with
  | nil =>
    refine ((List.map_congr_left fun a _ => ?_).trans (List.map_id attributes)).symm
    exact withDefault_of_ne List.not_mem_nil
  | cons entry rest ih =>
    obtain ⟨hnew, hrest⟩ := List.nodup_cons.1 hkeys
    rw [List.foldl_cons, setDefault_eq h, ih (by rwa [attributeNames_withDefault]) hrest, List.map_map]
    exact List.map_congr_left fun a _ => withDefault_cons hnew a

theorem Customized.withDefault {o : Option AttributeOverride} (h : Customized dir w o none a b)
    (defaults : Fields) :
    Customized dir w o (Dict.get? defaults a.name) a (withDefault defaults b) := by
  rw [Customization.withDefault, ← h.name]
  cases Dict.get? defaults b.name with
  | none => exact h
  | some v => exact ⟨h.name, h.itemType, h.required, h.description, rfl, h.enumValues, h.types⟩

/-! ### The whole -/

/-- What a customization adds to attributes of some names: its additions by key, the content, and the
names that are passed through, each only if it is not there yet. -/
def newNames (c : Customization) (names : List String) : List String :=
  let added := (Dict.keys c.additions).filter (· ∉ names)
  let content := if c.childrenSupport = true ∧ "content" ∉ names ++ added then ["content"] else []
  added ++ content ++
    ((c.passThrough.map (·.name)).filter (· ∉ names ++ added ++ content)).eraseDups

/-- New names differ from each other and from those that are taken. -/
theorem nodup_newNames {c : Customization} (h : c.Ordered) {names : List String}
    (hnames : names.Nodup) : (names ++ c.newNames names).Nodup := by
  rw [newNames, ← List.append_assoc, ← List.append_assoc]
  refine nodup_append_new (nodup_append_new (nodup_append_new hnames ?_ ?_) ?_ ?_)
    (nodup_eraseDups _) ?_
  · exact (Dict.nodup_keys h.additions).filter _
  · intro n hn
    simpa using (List.mem_filter.1 hn).2
  · split <;> simp
  · intro n hn
    split at hn
    · rename_i hcontent
      rw [List.mem_singleton.1 hn]
      exact hcontent.2
    · cases hn
  · intro n hn
    rw [List.mem_eraseDups] at hn
    exact of_decide_eq_true (List.mem_filter.1 hn).2

/-- Applying a customization keeps the attributes of the code in front and in order, changes only the
fields that it sets, and adds the names that are new. -/
theorem apply_conservative (c : Customization) (hc : c.Ordered) {attributes : List Attribute}
    (hnames : (attributeNames attributes).Nodup) {result : List Attribute}
    {applied : AppliedCustomization}
    (h : (c.apply (tokenValues dir) attributes).run.run w = (.ok (result, applied), w')) :
    ∃ kept added, result = kept ++ added ∧
      List.Forall₂ (fun a b =>
        Customized dir w' (Dict.get? c.overrides a.name) (Dict.get? c.defaults a.name) a b ∧
          (Dict.has c.overrides a.name = false → Dict.has c.defaults a.name = false → b = a))
        attributes kept ∧
      attributeNames added = c.newNames (attributeNames attributes) ∧
      (attributeNames result).Nodup := by
  obtain ⟨kept, w₁, hkept, h⟩ := run_bind_ok.1 h
  obtain ⟨hcustomized, -⟩ := overrideAll_ok hkept
  obtain ⟨out, w₂, hadd, h⟩ := run_bind_ok.1 h
  obtain ⟨added, rfl, hadded, hkeep⟩ := addAll_ok (Dict.nodup_keys hc.additions) hadd
  cases h
  have hsame : attributeNames kept = attributeNames attributes := by
    refine (List.forall₂_eq_eq_eq ▸ List.forall₂_map_left_iff.2 (List.forall₂_map_right_iff.2 ?_) :
      attributeNames attributes = attributeNames kept).symm
    exact hcustomized.imp fun a b hab => hab.name.symm
  rw [hsame] at hadded
  have hfront : attributeNames (kept ++ added) =
      attributeNames attributes ++ (Dict.keys c.additions).filter (· ∉ attributeNames attributes) := by
    rw [attributeNames_append, hsame, hadded]
  have hdefaults : c.defaults.foldl setDefault (kept ++ added) =
      kept.map (withDefault c.defaults) ++ added.map (withDefault c.defaults) := by
    rw [foldl_setDefault _ (Dict.nodup_keys hc.defaults), List.map_append]
    rw [hfront]
    exact nodup_append_new hnames ((Dict.nodup_keys hc.additions).filter _)
      fun n hn => of_decide_eq_true (List.mem_filter.1 hn).2
  have hfront' : attributeNames (kept.map (withDefault c.defaults) ++
      added.map (withDefault c.defaults)) = attributeNames (kept ++ added) := by
    rw [attributeNames_append, attributeNames_append, attributeNames_withDefault,
      attributeNames_withDefault]
  rw [hdefaults]
  obtain ⟨content, hcontent, hcontentNames⟩ := addContent_eq c.childrenSupport
    (kept.map (withDefault c.defaults) ++ added.map (withDefault c.defaults))
  obtain ⟨passed, hpassed, hpassedNames⟩ := addPassThrough_eq c.passThrough
    (kept.map (withDefault c.defaults) ++ added.map (withDefault c.defaults) ++ content)
  rw [hfront', hfront] at hcontentNames
  rw [attributeNames_append, hfront', hfront, hcontentNames] at hpassedNames
  have hnew : attributeNames (added.map (withDefault c.defaults) ++ content ++ passed) =
      c.newNames (attributeNames attributes) := by
    rw [attributeNames_append, attributeNames_append, attributeNames_withDefault, hadded,
      hcontentNames, hpassedNames]
    rfl
  rw [hcontent, hpassed]
  refine ⟨kept.map (withDefault c.defaults), added.map (withDefault c.defaults) ++ content ++ passed,
    by simp only [List.append_assoc], ?_, hnew, ?_⟩
  · rw [List.forall₂_map_right_iff]
    refine hcustomized.imp fun a b hab => ?_
    have hboth := (hab.mono hkeep).withDefault c.defaults
    refine ⟨hboth, fun ho hd => ?_⟩
    rw [Dict.has, Option.isSome_eq_false_iff, Option.isNone_iff_eq_none] at ho hd
    rw [ho, hd] at hboth
    exact hboth.eq_of_none
  · have hall := nodup_newNames hc hnames
    rw [← hnew, ← hsame, ← attributeNames_withDefault c.defaults kept, ← attributeNames_append] at hall
    simpa only [List.append_assoc] using hall

/-- Customizations that are read from a file are ordered. -/
theorem ordered_of_parse? {text : String} {c : Customization} (h : parse? text = some c) :
    c.Ordered := by
  obtain ⟨v, -, hread⟩ := Option.bind_eq_some_iff.1 h
  simp only [ofWritten?, Option.bind_eq_bind, Option.bind_eq_some_iff] at hread
  obtain ⟨_, -, _, -, _, hadditions, _, hdefaults, _, -, _, -, _, -, _, -, _, -, hc⟩ := hread
  cases hc
  exact ⟨Json.Written.sorted_of_orDefault hadditions, Json.Written.sorted_of_orDefault hdefaults⟩

/-! ### Icons -/

def iconCustomization : Customization where
  overrides := [("color", { values := some (.token "colors"), required := some true })]
  additions := [("color", { type := some .string }),
    ("size", { type := some .enum, values := some (.items [.str "sm", .str "md"]) })]
  defaults := [("color", .str "groen")]
  childrenSupport := true
  passThrough := [{ name := "href", targetElement := some "a" }]

def tokenWorkspace : Workspace :=
  { tree := { files := [] }, tokens := some [("colors", .static [.str "hemelblauw", .str "groen"])] }

theorem iconCustomization_ordered : iconCustomization.Ordered where
  additions := by decide
  defaults := by decide

/-- An icon with an overridden color, and with a size, content and a link added. -/
theorem iconCustomization_conservative :
    ∃ color result applied w',
      (iconCustomization.apply (tokenValues "/c") [color]).run.run tokenWorkspace =
        (.ok (result, applied), w') ∧
      ∃ b added, result = b :: added ∧ b.name = "color" ∧ b.required = true ∧
        b.enumValues = ["hemelblauw", "groen"] ∧ attributeNames added = ["size", "content", "href"] := by
  have happly : (iconCustomization.apply (tokenValues "/c") [Attribute.ofType "color" .string]).run.run
      tokenWorkspace = (.ok (_, _), _) := rfl
  refine ⟨.ofType "color" .string, _, _, _, happly, ?_⟩
  obtain ⟨kept, added, hresult, hkept, hadded, -⟩ :=
    apply_conservative iconCustomization iconCustomization_ordered (by decide) happly
  obtain ⟨b, rest, ⟨hcolor, -⟩, hrest, rfl⟩ := List.forall₂_cons_left_iff.1 hkept
  cases hrest
  have hvalues : Supplies "/c" tokenWorkspace (.token "colors") b.enumValues := hcolor.enumValues
  obtain ⟨table, htable, hvalues⟩ := hvalues
  cases htable
  have hcolors : Except.ok ["hemelblauw", "groen"] = Except.ok b.enumValues := hvalues
  exact ⟨b, added, hresult, hcolor.name, hcolor.required, (Except.ok.inj hcolors).symm,
    hadded.trans (by decide)⟩

end Customization

end JsxToJinja
