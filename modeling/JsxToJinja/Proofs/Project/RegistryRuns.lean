import JsxToJinja.Proofs.Json.Values
import JsxToJinja.Proofs.Project.Course

/-! Runs over a shared registry: load, point aliases at components, store, any number of times. The
registry is a map from aliases to components, and what other tools keep in the file stays as long as
its numbers come back from their own text. -/
namespace JsxToJinja
open Json (Written Held writtenFields written)

/-! ### What a loaded registry is like -/

/-- The fields that come back from the text of a map. -/
def reread (d : Fields) : Option Fields := (Written.fieldValues? (writtenFields d)).map Dict.ofList

theorem reread_eq_some_iff {n : Nat} {d : Fields} (h : Held n (.obj d)) :
    reread d = some d ↔ Json.Stable (.obj d) := by
  rw [← h.sorted.value?_written_iff, reread, written, Written.value?]
  cases Written.fieldValues? (writtenFields d) <;> simp [Json.object]

/-- An entry of a registry file: its keys are its own, and its values fit the file. -/
structure AliasEntry.Loaded (e : AliasEntry) : Prop where
  attributes : Held 124 (.obj e.defaultAttributes)
  extra : Held 125 (.obj e.extra)
  unknown : ∀ f ∈ e.extra, f.1 ∉ ["name", "target_component", "default_attributes", "description"]

/-- A registry as it comes out of a file. -/
structure Registry.Loaded (r : Registry) : Prop where
  entries : ∀ e ∈ r.aliases, e.Loaded
  other : Held 127 (.obj r.other)
  unknown : ∀ f ∈ r.other, f.1 ∉ ["aliases"]

private theorem held_nil (n : Nat) : Held (n + 1) (.obj []) :=
  ⟨.obj (by simp), .obj .nil (by simp)⟩

private theorem within_of_fields? {names : List String} {n : Nat} {fields : List (String × Written)}
    {field : String → Option Written} (hw : ∀ f ∈ fields, f.2.Within n)
    (h : Written.fields? names (.obj fields) = some field) {name : String} {v : Written}
    (hv : field name = some v) : v.Within n := by
  rw [Written.fields?] at h
  split at h
  · cases h
  · cases h
    obtain ⟨f, hf, rfl⟩ := Option.map_eq_some_iff.1 hv
    exact hw f (List.mem_of_find?_eq_some hf)

/-- Known fields are told apart from the others, and none is nested deeper than the object
allows. -/
theorem splitKnown?_held {names : List String} {w : Written} {n : Nat}
    {field : String → Option Written} {others : Fields} (hw : w.Within (n + 1))
    (h : splitKnown? names w = some (field, others)) :
    Held (n + 1) (.obj others) ∧ (∀ f ∈ others, f.1 ∉ names) ∧
      ∀ name v, field name = some v → v.Within n := by
  cases hw with
  | obj hw =>
    obtain ⟨known, hknown, h⟩ := Option.bind_eq_some_iff.1 h
    obtain ⟨read, hread, he⟩ := Option.bind_eq_some_iff.1 h
    cases he
    refine ⟨Json.held_ofList (fun f hf v hv => ?_) hread, fun e he => ?_, fun name v =>
      within_of_fields? hw hknown⟩
    · exact (hw f (List.mem_of_mem_filter hf)).held v hv
    · obtain ⟨f, hf, hfe, -⟩ := Json.exists_of_mem_fieldValues? hread he
      have hout := (List.mem_filter.1 hf).2
      rw [← hfe]
      simpa using hout
  | _ => cases h

private theorem dict?_held {w : Written} {n : Nat} {d : Fields} (hw : w.Within (n + 1))
    (h : Written.dict? Written.value? w = some d) : Held (n + 1) (.obj d) := by
  cases hw with
  | obj hw =>
    rw [Written.dict?, ← Written.fieldValues?_eq] at h
    obtain ⟨read, hread, rfl⟩ := Option.map_eq_some_iff.1 h
    exact Json.held_ofList (fun f hf => (hw f hf).held) hread
  | _ => cases h

private theorem orDefault_cases {default a : α} {read : Written → Option α} {field : Option Written}
    (h : Written.orDefault default read field = some a) :
    a = default ∨ ∃ v, field = some v ∧ read v = some a := by
  cases field with
  | none => exact .inl (Option.some.inj h).symm
  | some v => exact .inr ⟨v, rfl, h⟩

theorem AliasEntry.loaded_of_ofWritten? {w : Written} {e : AliasEntry} (hw : w.Within 125)
    (h : AliasEntry.ofWritten? w = some e) : e.Loaded := by
  obtain ⟨⟨field, extra⟩, hsplit, h⟩ := Option.bind_eq_some_iff.1 h
  obtain ⟨hextra, hunknown, hfield⟩ := splitKnown?_held hw hsplit
  simp only [Option.bind_eq_bind, Option.bind_eq_some_iff, Option.some.injEq] at h
  obtain ⟨_, _, _, _, _, _, _, _, d, hd, _, _, rfl⟩ := h
  refine ⟨?_, hextra, hunknown⟩
  obtain rfl | ⟨v, hv, hd⟩ := orDefault_cases hd
  · exact held_nil 123
  · exact dict?_held (hfield _ v hv) hd

theorem Registry.loaded_of_ofWritten? {w : Written} {r : Registry} (hw : w.Within 127)
    (h : Registry.ofWritten? w = some r) : r.Loaded := by
  obtain ⟨⟨field, other⟩, hsplit, h⟩ := Option.bind_eq_some_iff.1 h
  obtain ⟨hother, hunknown, hfield⟩ := splitKnown?_held hw hsplit
  obtain ⟨entries, hentries, he⟩ := Option.bind_eq_some_iff.1 h
  cases he
  refine ⟨?_, hother, hunknown⟩
  obtain rfl | ⟨v, hv, hread⟩ := orDefault_cases hentries
  · simp
  · cases hfield _ v hv with
    | arr hw =>
      intro e he
      obtain ⟨w, hwi, hwe⟩ := Json.exists_of_mem_mapM hread he
      exact AliasEntry.loaded_of_ofWritten? (hw w hwi) hwe
    | _ => cases hread

theorem Registry.loaded_of_load? {path : String} {tree : FileTree} {r : Registry}
    (h : Registry.load? path tree = some r) : r.Loaded := by
  rw [Registry.load?] at h
  split at h
  · obtain ⟨w, hw, hr⟩ := Option.bind_eq_some_iff.1 h
    exact Registry.loaded_of_ofWritten? (Json.within_of_parse? hw) hr
  · cases h
    exact ⟨by simp, held_nil _, by simp⟩

/-! ### The text of a registry -/

theorem AliasEntry.Loaded.within {e : AliasEntry} (h : e.Loaded) : Json.Within 125 e.toJson := by
  refine .obj fun f hf => ?_
  rcases List.mem_append.1 hf with hf | hf
  · simp only [List.mem_cons, List.not_mem_nil, or_false] at hf
    obtain rfl | rfl | rfl | rfl := hf
    · exact .str _
    · exact .str _
    · exact h.attributes.within
    · exact .str _
  · cases h.extra.within with
    | obj hextra => exact hextra f hf

theorem Registry.Loaded.within {r : Registry} (h : r.Loaded) : Json.Within 127 r.toJson := by
  refine .obj fun f hf => ?_
  rcases List.mem_cons.1 hf with rfl | hf
  · refine .arr fun v hv => ?_
    obtain ⟨e, he, rfl⟩ := List.mem_map.1 hv
    exact (h.entries e he).within
  · cases h.other.within with
    | obj hother => exact hother f hf

private theorem splitKnown?_append (names : List String) (known : List (String × Written))
    {others : List (String × Written)} (hknown : known.map (·.1) = names) (hnodup : names.Nodup)
    (hothers : ∀ f ∈ others, f.1 ∉ names) :
    splitKnown? names (.obj (known ++ others)) =
      (Written.fieldValues? others).map fun read =>
        (fun n => ((known ++ others).find? (·.1 == n)).map (·.2), Dict.ofList read) := by
  have hcount : ∀ n ∈ names, (known ++ others).countP (·.1 == n) ≤ 1 := fun n hn => by
    have hout : others.countP (·.1 == n) = 0 := List.countP_eq_zero.2 fun f hf he =>
      hothers f hf (beq_iff_eq.1 he ▸ hn)
    have hin : known.countP (·.1 == n) = names.count n := by
      rw [← hknown, List.count, List.countP_map]
      rfl
    have hone := List.nodup_iff_count.1 hnodup n
    rw [List.countP_append, hin, hout]
    omega
  have honce : ¬ (names.any fun n => 1 < (known ++ others).countP (·.1 == n)) = true := by
    simp only [List.any_eq_true, decide_eq_true_eq, not_exists, not_and]
    exact fun n hn => Nat.not_lt.2 (hcount n hn)
  have hfilter : (known ++ others).filter (fun f => !names.contains f.1) = others := by
    rw [List.filter_append, List.filter_eq_nil_iff.2, List.filter_eq_self.2, List.nil_append]
    · exact fun f hf => by simpa using hothers f hf
    · exact fun f hf => by simpa [← hknown] using ⟨f.2, hf⟩
  rw [splitKnown?, Written.fields?, if_neg honce, hfilter]
  cases Written.fieldValues? others <;> rfl

/-- The text of a whole entry. -/
theorem AliasEntry.ofWritten?_written {e : AliasEntry} (h : e.Loaded) :
    AliasEntry.ofWritten? (written e.toJson) =
      (reread e.extra).bind fun extra => (reread e.defaultAttributes).map fun defaultAttributes =>
        { e with defaultAttributes, extra } := by
  have hothers : ∀ f ∈ writtenFields e.extra,
      f.1 ∉ ["name", "target_component", "default_attributes", "description"] := fun f hf => by
    rw [Json.writtenFields_eq] at hf
    obtain ⟨g, hg, rfl⟩ := List.mem_map.1 hf
    exact h.unknown g hg
  have hsplit := splitKnown?_append
    ["name", "target_component", "default_attributes", "description"]
    [("name", .str e.name), ("target_component", .str e.target),
      ("default_attributes", .obj (writtenFields e.defaultAttributes)),
      ("description", .str e.description)] rfl (by decide) hothers
  have hwritten : written e.toJson = .obj ([
      ("name", .str e.name), ("target_component", .str e.target),
      ("default_attributes", .obj (writtenFields e.defaultAttributes)),
      ("description", .str e.description)] ++ writtenFields e.extra) := rfl
  rw [AliasEntry.ofWritten?, hwritten, hsplit, reread, reread]
  cases Written.fieldValues? (writtenFields e.extra) with
  | none => rfl
  | some extra =>
    have hdict : Written.dict? Written.value? (.obj (writtenFields e.defaultAttributes)) =
        (Written.fieldValues? (writtenFields e.defaultAttributes)).map Dict.ofList := by
      rw [Written.dict?, Written.fieldValues?_eq]
    -- the known fields but one are texts
    change (Written.dict? Written.value? (.obj (writtenFields e.defaultAttributes))).bind
      (fun defaultAttributes => some { e with defaultAttributes, extra := Dict.ofList extra }) = _
    rw [hdict]
    cases Written.fieldValues? (writtenFields e.defaultAttributes) <;> rfl

/-- The text of a registry is read as its aliases, and the keys of other tools as far as these come
back. -/
theorem Registry.parse?_text_eq {r : Registry} (h : r.Loaded) :
    Registry.parse? r.text =
      (reread r.other).bind fun other =>
        (r.aliases.mapM fun e => AliasEntry.ofWritten? (written e.toJson)).map fun aliases =>
          ⟨aliases, other⟩ := by
  have hothers : ∀ f ∈ writtenFields r.other, f.1 ∉ ["aliases"] := fun f hf => by
    rw [Json.writtenFields_eq] at hf
    obtain ⟨g, hg, rfl⟩ := List.mem_map.1 hf
    exact h.unknown g hg
  have hsplit := splitKnown?_append ["aliases"]
    [("aliases", .arr (Json.writtenItems (r.aliases.map AliasEntry.toJson)))] rfl (by decide)
    hothers
  have hwritten : written r.toJson =
      .obj ([("aliases", .arr (Json.writtenItems (r.aliases.map AliasEntry.toJson)))] ++
        writtenFields r.other) := rfl
  have hlist : Written.list? AliasEntry.ofWritten?
      (.arr (Json.writtenItems (r.aliases.map AliasEntry.toJson))) =
        r.aliases.mapM fun e => AliasEntry.ofWritten? (written e.toJson) := by
    rw [Written.list?, Json.writtenItems_eq, List.map_map, List.mapM_map]
    rfl
  rw [Registry.parse?, Registry.text, Json.parse?_pretty h.within, Option.bind_some,
    Registry.ofWritten?, hwritten, hsplit, reread]
  cases Written.fieldValues? (writtenFields r.other) with
  | none => rfl
  | some other =>
    change (Written.list? AliasEntry.ofWritten?
      (.arr (Json.writtenItems (r.aliases.map AliasEntry.toJson)))).bind
        (fun aliases => some (Registry.mk aliases (Dict.ofList other))) = _
    rw [hlist]
    cases r.aliases.mapM fun e => AliasEntry.ofWritten? (written e.toJson) <;> rfl

/-! ### Registries that stay as they are -/

/-- The numbers that other tools keep in an entry come back from their own text. -/
structure AliasEntry.Stable (e : AliasEntry) : Prop where
  attributes : Json.Stable (.obj e.defaultAttributes)
  extra : Json.Stable (.obj e.extra)

/-- The numbers that other tools keep in a registry come back from their own text. -/
structure Registry.Stable (r : Registry) : Prop where
  entries : ∀ e ∈ r.aliases, e.Stable
  other : Json.Stable (.obj r.other)

instance (e : AliasEntry) : Decidable e.Stable :=
  decidable_of_iff (Json.Stable (.obj e.defaultAttributes) ∧ Json.Stable (.obj e.extra))
    ⟨fun h => ⟨h.1, h.2⟩, fun h => ⟨h.attributes, h.extra⟩⟩

instance (r : Registry) : Decidable r.Stable :=
  decidable_of_iff ((∀ e ∈ r.aliases, e.Stable) ∧ Json.Stable (.obj r.other))
    ⟨fun h => ⟨h.1, h.2⟩, fun h => ⟨h.entries, h.other⟩⟩

private theorem AliasEntry.Loaded.reads_itself_iff {e : AliasEntry} (h : e.Loaded) {e' : AliasEntry}
    (hattributes : e'.defaultAttributes = e.defaultAttributes) (hextra : e'.extra = e.extra) :
    AliasEntry.ofWritten? (written e.toJson) = some e' ↔ e' = e ∧ e.Stable := by
  rw [AliasEntry.ofWritten?_written h]
  constructor
  · intro hread
    obtain ⟨x, hx, hread⟩ := Option.bind_eq_some_iff.1 hread
    obtain ⟨d, hd, rfl⟩ := Option.map_eq_some_iff.1 hread
    dsimp only at hattributes hextra
    subst hattributes hextra
    exact ⟨rfl, (reread_eq_some_iff h.attributes).1 hd, (reread_eq_some_iff h.extra).1 hx⟩
  · rintro ⟨rfl, hs⟩
    rw [(reread_eq_some_iff h.extra).2 hs.extra, (reread_eq_some_iff h.attributes).2 hs.attributes]
    rfl

/-- A registry with stable entries is read back from its text, but for what becomes of the keys of
other tools. -/
theorem Registry.Loaded.parse?_text_of_reread {r : Registry} (h : r.Loaded)
    (hs : ∀ e ∈ r.aliases, e.Stable) {other : Fields} (hother : reread r.other = some other) :
    Registry.parse? r.text = some { r with other } := by
  have hentries :
      (r.aliases.mapM fun e => AliasEntry.ofWritten? (written e.toJson)) = some r.aliases := by
    rw [Json.mapM_eq_some_iff, List.forall₂_same]
    exact fun e he => ((h.entries e he).reads_itself_iff rfl rfl).2 ⟨rfl, hs e he⟩
  rw [Registry.parse?_text_eq h, hother, hentries]
  rfl

theorem Registry.Loaded.parse?_text {r : Registry} (h : r.Loaded) (hs : r.Stable) :
    Registry.parse? r.text = some r :=
  h.parse?_text_of_reread hs.entries ((reread_eq_some_iff h.other).2 hs.other)

/-- The entries of one registry stand first in another, with the keys of other tools unchanged. -/
def Registry.KeptIn (r r' : Registry) : Prop :=
  ∀ (i : Nat) (e : AliasEntry), r.aliases[i]? = some e →
    ∃ e' : AliasEntry, r'.aliases[i]? = some e' ∧ e'.name = e.name ∧
      e'.defaultAttributes = e.defaultAttributes ∧ e'.extra = e.extra

/-- If nothing that other tools keep is lost on the way through the text, the registry is stable. -/
theorem Registry.Loaded.stable_of_kept {r r' : Registry} (h : r.Loaded)
    (hread : Registry.parse? r.text = some r') (hkept : r.KeptIn r') (hother : r'.other = r.other) :
    r.Stable := by
  rw [Registry.parse?_text_eq h] at hread
  obtain ⟨other, hrereads, hread⟩ := Option.bind_eq_some_iff.1 hread
  obtain ⟨aliases, haliases, rfl⟩ := Option.map_eq_some_iff.1 hread
  dsimp only at hother
  subst hother
  refine ⟨fun e he => ?_, (reread_eq_some_iff h.other).1 hrereads⟩
  obtain ⟨i, hi, rfl⟩ := List.getElem_of_mem he
  obtain ⟨e', he', -, hattributes, hextra⟩ := hkept i _ (List.getElem?_eq_getElem hi)
  obtain ⟨hi', rfl⟩ := List.getElem?_eq_some_iff.1 he'
  have hentry := (List.forall₂_iff_get.1 (Json.mapM_eq_some_iff.1 haliases)).2 i hi hi'
  exact (((h.entries _ he).reads_itself_iff hattributes hextra).1 hentry).2

/-! ### Pointing aliases at components -/

namespace Registry

def names (r : Registry) : List String := r.aliases.map (·.name)

theorem has_iff {r : Registry} {name : String} : r.has name = true ↔ name ∈ r.names := by
  rw [has, get?, List.find?_isSome, names, List.mem_map]
  simp

private theorem map_name_repointFirst (name target : String) (entries : List AliasEntry) :
    (repointFirst name target entries).map (·.name) =
      if name ∈ entries.map (·.name) then entries.map (·.name)
      else entries.map (·.name) ++ [name] := by
  induction entries with
  | nil => simp [repointFirst, AliasEntry.new]
  | cons e rest ih =>
    rw [repointFirst]
    split
    · rename_i he
      rw [beq_iff_eq] at he
      simp [AliasEntry.repoint, he]
    · rename_i he
      rw [beq_iff_eq] at he
      rw [List.map_cons, ih, List.map_cons]
      simp only [List.mem_cons, Ne.symm he, false_or]
      split <;> rfl

/-- A new alias comes last, a known one stays where it is. -/
theorem names_register (r : Registry) (name target : String) : (r.register name target).names =
    if name ∈ r.names then r.names else r.names ++ [name] :=
  map_name_repointFirst name target r.aliases

theorem contains_names_register (r : Registry) (name target other : String) :
    (r.register name target).names.contains other = (other == name || r.names.contains other) := by
  rw [names_register, Bool.eq_iff_iff]
  split
  · rename_i hin
    simp only [List.contains_iff_mem, Bool.or_eq_true, beq_iff_eq]
    exact ⟨.inr, fun h => h.elim (fun he => he ▸ hin) id⟩
  · simp [or_comm]

/-- Registering an alias keeps the entries in their order, and the keys of other tools. -/
theorem keptIn_register (r : Registry) (name target : String) :
    r.KeptIn (r.register name target) := by
  have hentries (entries : List AliasEntry) (i : Nat) (e : AliasEntry) (he : entries[i]? = some e) :
      ∃ e' : AliasEntry, (repointFirst name target entries)[i]? = some e' ∧ e'.name = e.name ∧
        e'.defaultAttributes = e.defaultAttributes ∧ e'.extra = e.extra := by
    induction entries generalizing i with
    | nil => simp at he
    | cons f rest ih =>
      rw [repointFirst]
      cases i with
      | zero =>
        cases he
        split
        · exact ⟨_, rfl, rfl, rfl, rfl⟩
        · exact ⟨_, rfl, rfl, rfl, rfl⟩
      | succ i =>
        rw [List.getElem?_cons_succ] at he
        split
        · exact ⟨e, he, rfl, rfl, rfl⟩
        · exact ih i he
  exact hentries r.aliases

theorem KeptIn.trans {r s t : Registry} (h : r.KeptIn s) (h' : s.KeptIn t) : r.KeptIn t := by
  intro i e he
  obtain ⟨e', he', hname, hattributes, hextra⟩ := h i e he
  obtain ⟨e'', he'', hname', hattributes', hextra'⟩ := h' i e' he'
  exact ⟨e'', he'', hname'.trans hname, hattributes'.trans hattributes, hextra'.trans hextra⟩

private theorem mem_register {r : Registry} {name target : String} {e : AliasEntry}
    (he : e ∈ (r.register name target).aliases) :
    e = .new name target ∨ ∃ f ∈ r.aliases, e = f ∨ e = f.repoint target := by
  have hentries (entries : List AliasEntry) (he : e ∈ repointFirst name target entries) :
      e = .new name target ∨ ∃ f ∈ entries, e = f ∨ e = f.repoint target := by
    induction entries with
    | nil => exact .inl (List.mem_singleton.1 he)
    | cons f rest ih =>
      rw [repointFirst] at he
      split at he
      · rcases List.mem_cons.1 he with rfl | he
        · exact .inr ⟨f, by simp, .inr rfl⟩
        · exact .inr ⟨e, by simp [he], .inl rfl⟩
      · rcases List.mem_cons.1 he with rfl | he
        · exact .inr ⟨e, by simp, .inl rfl⟩
        · rcases ih he with h | ⟨g, hg, h⟩
          · exact .inl h
          · exact .inr ⟨g, by simp [hg], h⟩
  exact hentries r.aliases he

theorem Loaded.register {r : Registry} (h : r.Loaded) (name target : String) :
    (r.register name target).Loaded := by
  refine ⟨fun e he => ?_, h.other, h.unknown⟩
  obtain rfl | ⟨f, hf, rfl | rfl⟩ := mem_register he
  · exact ⟨held_nil _, held_nil _, by simp [AliasEntry.new]⟩
  · exact h.entries _ hf
  · exact ⟨(h.entries f hf).attributes, (h.entries f hf).extra, (h.entries f hf).unknown⟩

theorem Stable.register {r : Registry} (h : r.Stable) (name target : String) :
    (r.register name target).Stable := by
  refine ⟨fun e he => ?_, h.other⟩
  obtain rfl | ⟨f, hf, rfl | rfl⟩ := mem_register he
  · exact ⟨.obj (by simp [AliasEntry.new]), .obj (by simp [AliasEntry.new])⟩
  · exact h.entries _ hf
  · exact ⟨(h.entries f hf).attributes, (h.entries f hf).extra⟩

/-! ### Runs -/

/-- Points aliases at components one after another, and tells of each whether it was known. -/
def registerCalls (r : Registry) : List (String × String) → Registry × List Bool
  | [] => (r, [])
  | (name, target) :: rest =>
    let (s, known) := (r.register name target).registerCalls rest
    (s, r.has name :: known)

def round? (path : String) (calls : List (String × String)) (tree : FileTree) :
    Option (FileTree × List Bool) := do
  let r ← load? path tree
  let (s, known) := r.registerCalls calls
  some (tree.write path s.text, known)

def rounds? (path : String) :
    List (List (String × String)) → FileTree → Option (FileTree × List Bool)
  | [], tree => some (tree, [])
  | calls :: rest, tree => do
    let (tree, known) ← round? path calls tree
    let (tree, more) ← rounds? path rest tree
    some (tree, known ++ more)

/-- A registry after calls that point aliases at components: a map in which each alias stands for
its last component, with new aliases behind the others in the order of their first call. -/
structure Follows (r : Registry) (calls : List (String × String)) (r' : Registry) : Prop where
  distinct : r'.names.Nodup
  names : r'.names = r.names ++ ((calls.map (·.1)).filter (!r.names.contains ·)).eraseDups
  target : ∀ name, (r'.get? name).map (·.target) =
    (calls.reverse.lookup name).or ((r.get? name).map (·.target))
  kept : r.KeptIn r'
  other : r'.other = r.other

/-- Whether each alias was there before, or came with an earlier call. -/
def answers (names : List String) (calls : List (String × String)) : List Bool :=
  calls.mapIdx fun i call => names.contains call.1 || ((calls.take i).map (·.1)).contains call.1

theorem Follows.refl {r : Registry} (h : r.names.Nodup) : r.Follows [] r where
  distinct := h
  names := by simp
  target := by simp
  kept := fun _ e he => ⟨e, he, rfl, rfl, rfl⟩
  other := rfl

theorem nodup_register {r : Registry} (h : r.names.Nodup) (name target : String) :
    (r.register name target).names.Nodup := by
  rw [names_register]
  split
  · exact h
  · rename_i hnew
    refine List.nodup_append.2 ⟨h, by simp, fun a ha b hb => ?_⟩
    rintro rfl
    exact hnew (List.mem_singleton.1 hb ▸ ha)

/-- The calls behind the first one see the registry that the first one leaves. -/
theorem Follows.cons {r r' : Registry} {name target : String} {calls : List (String × String)}
    (h : (r.register name target).Follows calls r') : r.Follows ((name, target) :: calls) r' where
  distinct := h.distinct
  names := by
    have hcontains : (fun other => !(r.register name target).names.contains other) =
        fun other => !other == name && !r.names.contains other := by
      funext other
      rw [contains_names_register, Bool.not_or]
    rw [h.names, List.map_cons, hcontains, ← List.filter_filter, names_register]
    split
    · rename_i hin
      rw [List.filter_cons_of_neg (by simpa using hin), List.filter_eq_self.2]
      intro other hother
      have hout := (List.mem_filter.1 hother).2
      simp only [Bool.not_eq_true', beq_eq_false_iff_ne]
      rintro rfl
      simp [hin] at hout
    · rename_i hnew
      rw [List.filter_cons_of_pos (by simpa using hnew), List.eraseDups_cons, List.append_assoc,
        List.singleton_append]
  target := fun other => by
    rw [h.target, List.reverse_cons, List.lookup_append, Option.or_assoc]
    congr 1
    by_cases hother : other = name
    · rw [hother, target_register_self]
      simp
    · rw [get?_register_of_ne r target hother]
      simp [hother]
  kept := (keptIn_register r name target).trans h.kept
  other := h.other

/-- Several aliases are registered one by one, each answer as it was when its turn came. -/
theorem registerCalls_follows {r : Registry} (h : r.names.Nodup) (calls : List (String × String)) :
    r.Follows calls (r.registerCalls calls).1 ∧
      (r.registerCalls calls).2 = answers r.names calls := by
  induction calls generalizing r with
  | nil => exact ⟨.refl h, rfl⟩
  | cons call rest ih =>
    obtain ⟨hrest, hanswers⟩ := ih (nodup_register h call.1 call.2)
    refine ⟨hrest.cons, ?_⟩
    rw [registerCalls, answers, List.mapIdx_cons]
    dsimp only
    rw [hanswers]
    have hhas : r.has call.1 = r.names.contains call.1 := by
      rw [Bool.eq_iff_iff, has_iff, List.contains_iff_mem]
    congr 1
    · simp [hhas]
    · rw [answers]
      congr 1
      funext i c
      rw [List.take_succ_cons, List.map_cons, List.contains_cons, contains_names_register,
        Bool.or_comm (c.1 == call.1), Bool.or_assoc]

theorem Loaded.registerCalls {r : Registry} (h : r.Loaded) (calls : List (String × String)) :
    (r.registerCalls calls).1.Loaded := by
  induction calls generalizing r with
  | nil => exact h
  | cons call rest ih => exact ih (h.register call.1 call.2)

theorem Stable.registerCalls {r : Registry} (h : r.Stable) (calls : List (String × String)) :
    (r.registerCalls calls).1.Stable := by
  induction calls generalizing r with
  | nil => exact h
  | cons call rest ih => exact ih (h.register call.1 call.2)

theorem registerCalls_append (r : Registry) (calls more : List (String × String)) :
    r.registerCalls (calls ++ more) =
      (((r.registerCalls calls).1.registerCalls more).1,
        (r.registerCalls calls).2 ++ ((r.registerCalls calls).1.registerCalls more).2) := by
  induction calls generalizing r with
  | nil => rfl
  | cons call rest ih =>
    rw [List.cons_append, Registry.registerCalls, ih]
    rfl

/-- A stored registry that is stable is the one that is loaded next. -/
theorem load?_write_text {r : Registry} (h : r.Loaded) (hs : r.Stable) (path : String)
    (tree : FileTree) : load? path (tree.write path r.text) = some r := by
  rw [load?, FileTree.read?_write_self]
  exact h.parse?_text hs

/-- Storing and loading in between makes no difference to a stable registry. -/
theorem rounds?_of_stable {path : String} {tree : FileTree} {r : Registry}
    (hload : load? path tree = some r) (hs : r.Stable) (rounds : List (List (String × String))) :
    ∃ tree', rounds? path rounds tree = some (tree', (r.registerCalls rounds.flatten).2) ∧
      load? path tree' = some (r.registerCalls rounds.flatten).1 := by
  induction rounds generalizing tree r with
  | nil => exact ⟨tree, rfl, hload⟩
  | cons calls rest ih =>
    have hround : round? path calls tree =
        some (tree.write path (r.registerCalls calls).1.text, (r.registerCalls calls).2) := by
      rw [round?, hload]
      rfl
    have hloaded := loaded_of_load? hload
    obtain ⟨tree', hrest, hlast⟩ := ih
      (load?_write_text (hloaded.registerCalls calls) (hs.registerCalls calls) path tree)
      (hs.registerCalls calls)
    refine ⟨tree', ?_, ?_⟩
    · rw [rounds?, hround, List.flatten_cons, registerCalls_append]
      simp [hrest]
    · rw [List.flatten_cons, registerCalls_append, hlast]

/-- Over any number of rounds the registry is a map from aliases to components, and nothing that
other tools keep in the file changes, exactly when each of their numbers comes back from its own
text. -/
theorem rounds_follow_iff {path : String} {tree : FileTree} {r : Registry}
    (hload : load? path tree = some r) (hnames : r.names.Nodup) :
    (∀ rounds : List (List (String × String)), ∃ tree' r',
      rounds? path rounds tree = some (tree', answers r.names rounds.flatten) ∧
        load? path tree' = some r' ∧ r.Follows rounds.flatten r') ↔ r.Stable := by
  have hloaded := loaded_of_load? hload
  constructor
  · intro h
    -- one round without calls: the file is stored as it was loaded
    obtain ⟨tree', r', hrounds, hload', hfollows⟩ := h [[]]
    have htree : tree' = tree.write path r.text := by
      have hround : rounds? path [[]] tree = some (tree.write path r.text, []) := by
        simp [rounds?, round?, hload, Registry.registerCalls]
      rw [hround] at hrounds
      exact (congrArg Prod.fst (Option.some.inj hrounds)).symm
    rw [htree, load?, FileTree.read?_write_self] at hload'
    exact hloaded.stable_of_kept hload' hfollows.kept hfollows.other
  · intro hs rounds
    obtain ⟨hfollows, hanswers⟩ := registerCalls_follows hnames rounds.flatten
    obtain ⟨tree', hrounds, hlast⟩ := rounds?_of_stable hload hs rounds
    exact ⟨tree', _, hanswers ▸ hrounds, hlast, hfollows⟩

def sharedFiles : FileTree := ⟨[("/p/definitions.json",
  "\x7b\"components\": [\x7b\"name\": \"button\"\x7d], \"aliases\": [\x7b\"name\": \"fs\", " ++
    "\"target_component\": \"form-fieldset\", \"default_attributes\": \x7b\"x\": 1\x7d\x7d]\x7d")], []⟩

theorem shared_registry_follows : ∃ r, load? "/p/definitions.json" sharedFiles = some r ∧
    r.names.Nodup ∧ r.names = ["fs"] ∧ r.Stable ∧
    ∀ rounds : List (List (String × String)), ∃ tree' r',
      rounds? "/p/definitions.json" rounds sharedFiles =
          some (tree', answers r.names rounds.flatten) ∧
        load? "/p/definitions.json" tree' = some r' ∧ r.Follows rounds.flatten r' := by
  have hany : (load? "/p/definitions.json" sharedFiles).any
      (fun r => r.names = ["fs"] ∧ r.Stable) = true := by decide +kernel
  obtain ⟨r, hr, hloaded⟩ := (Option.any_eq_true _ _).1 hany
  have hloaded := of_decide_eq_true hloaded
  have hnodup : r.names.Nodup := by simp [hloaded.1]
  exact ⟨r, hr, hnodup, hloaded.1, hloaded.2, (rounds_follow_iff hr hnodup).2 hloaded.2⟩

/-- A registry with a key of another tool: a small tolerance. -/
def toleranceFiles : FileTree :=
  ⟨[("/p/definitions.json", "\x7b\"aliases\": [], \"tolerance\": 1e-30\x7d")], []⟩

/-- One round is enough to change the tolerance. -/
theorem tolerance_changed_in_a_round : ∃ r tree' r',
    load? "/p/definitions.json" toleranceFiles = some r ∧ r.names.Nodup ∧
      rounds? "/p/definitions.json" [[("a", "b")]] toleranceFiles = some (tree', [false]) ∧
        load? "/p/definitions.json" tree' = some r' ∧ r'.other ≠ r.other := by
  -- what comes of the other keys is told from them alone, the file need not be stored
  have hany : (load? "/p/definitions.json" toleranceFiles).any (fun r =>
      r.aliases.isEmpty ∧ ¬ Json.Stable (.obj r.other) ∧ (reread r.other).isSome) = true := by
    decide +kernel
  obtain ⟨r, hr, hread⟩ := (Option.any_eq_true _ _).1 hany
  obtain ⟨haliases, hunstable, hsome⟩ := of_decide_eq_true hread
  obtain ⟨other, hother⟩ := Option.isSome_iff_exists.1 hsome
  rw [List.isEmpty_iff] at haliases
  have hloaded := loaded_of_load? hr
  have hregistered : (r.register "a" "b").aliases = [.new "a" "b"] := by
    rw [register, haliases]
    rfl
  refine ⟨r, toleranceFiles.write "/p/definitions.json" (r.register "a" "b").text,
    { r.register "a" "b" with other }, hr, by simp [names, haliases], ?_, ?_, fun heq => ?_⟩
  · simp [rounds?, round?, hr, registerCalls, has, get?, haliases]
  · rw [load?, FileTree.read?_write_self]
    refine (hloaded.register "a" "b").parse?_text_of_reread (fun e he => ?_) hother
    rw [hregistered, List.mem_singleton] at he
    subst he
    decide
  · exact hunstable ((reread_eq_some_iff hloaded.other).1 (heq ▸ hother))

end Registry

namespace Conversion

/-! ### The aliases of a conversion -/

/-- Warnings about the aliases that were there before. -/
def repointed (aliases : List String) (known : List Bool) : List Event :=
  ((aliases.zip known).filter (·.2)).map fun a => .warn ("Updated existing alias: " ++ a.1)

/-- Registering aliases ends, and tells of those that were there. -/
theorem run_registerAll (target : String) (aliases : List String) (r : Registry) (w : Workspace) :
    (registerAll target aliases r).run.run w =
      (.ok (r.registerCalls (aliases.map (·, target))).1,
        { w with trace := w.trace ++
          repointed aliases (r.registerCalls (aliases.map (·, target))).2 }) := by
  induction aliases generalizing r w with
  | nil =>
    have hnone : repointed [] (r.registerCalls []).2 = [] := rfl
    rw [List.map_nil, hnone, List.append_nil]
    rfl
  | cons name rest ih =>
    rw [registerAll, List.map_cons, Registry.registerCalls]
    cases hknown : r.has name with
    | true =>
      rw [if_pos rfl, run_bind, run_emit]
      dsimp only
      rw [ih, List.append_assoc]
      rfl
    | false =>
      rw [if_neg Bool.false_ne_true]
      exact ih _ w

/-- A conversion registers its aliases in one round, and warns about those it repoints. -/
theorem run_registerAliases {layout : Layout} {target : String} {aliases : List String}
    {w : Workspace} {r : Registry} (hne : aliases ≠ [])
    (hload : Registry.load? layout.registry w.tree = some r) :
    ∃ tree known, Registry.round? layout.registry (aliases.map (·, target)) w.tree =
        some (tree, known) ∧
      (registerAliases layout target aliases).run.run w = (.ok (), { w with
        tree
        trace := w.trace ++ (.step "🏷  Registering aliases..." :: repointed aliases known ++
          [.ok ("Registered " ++ toString aliases.length ++ " alias(es): " ++
            ", ".intercalate aliases)]) }) := by
  refine ⟨w.tree.write layout.registry (r.registerCalls (aliases.map (·, target))).1.text,
    (r.registerCalls (aliases.map (·, target))).2, by rw [Registry.round?, hload]; rfl, ?_⟩
  have hempty : aliases.isEmpty = false := by
    cases aliases with
    | nil => exact absurd rfl hne
    | cons _ _ => rfl
  rw [registerAliases, hempty, if_neg Bool.false_ne_true, run_bind, run_emit]
  dsimp only
  rw [run_bind, run_files]
  dsimp only
  rw [hload]
  dsimp only
  rw [run_bind, run_registerAll]
  dsimp only
  rw [run_bind, run_write]
  simp [run_emit]

end Conversion

end JsxToJinja
