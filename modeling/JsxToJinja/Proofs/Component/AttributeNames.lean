import JsxToJinja.Component.Source
import JsxToJinja.Proofs.Component.TypeResolution

/-! Names of attributes. A member is written with a bare name or with a quoted one, and resolution,
defaults and the parameter list add no other names. -/
namespace JsxToJinja
open JsxToJinja.Text JsxToJinja.Code

/-- What stands before the type of a member: a name, or a text between quotes without its quote. -/
inductive IsMemberName : List Char → Prop where
  | bare {n : List Char} : isName n = true → IsMemberName n
  | quoted {q : Char} {n : List Char} : q = '\x27' ∨ q = '\x22' → q ∉ n → IsMemberName n

namespace Member

def WellNamed (members : List Member) : Prop := ∀ m ∈ members, IsMemberName m.name.toList

/-- The captures that a name is taken from hold names. -/
def HoldsNames (t : List Char) (caps : Captures) : Prop :=
  ∀ e ∈ caps, e.1 ≤ 3 → IsMemberName (slice t e.2.1 e.2.2)

theorem HoldsNames.cons {t : List Char} {caps : Captures} {e : Nat × Nat × Nat}
    (h : HoldsNames t caps) (he : e.1 ≤ 3 → IsMemberName (slice t e.2.1 e.2.2)) :
    HoldsNames t (e :: caps) := by
  intro e' he'
  rcases List.mem_cons.1 he' with rfl | he'
  · exact he
  · exact h e' he'

open Pattern in
theorem leads_quoted (t : List Char) {q : Char} (hq : q = '\x27' ∨ q = '\x22') (n : Nat) :
    (one (· == q) ++ group n (many 1 (· != q)) ++ one (· == q)).Leads t (HoldsNames t)
      (HoldsNames t) := by
  refine leads_append (leads_append (leads_one _) (leads_group_many ?_)) (leads_one _)
  intro caps a b hcaps hall
  refine hcaps.cons fun _ => .quoted hq fun hm => ?_
  simpa using hall q hm

open Pattern in
theorem leads_head (t : List Char) : head.Leads t (HoldsNames t) (HoldsNames t) := by
  have hblanks (n : Nat) : (many n isBlank).Leads t (HoldsNames t) (HoldsNames t) := leads_many n _
  have hother {p : Pattern} {n : Nat} (hn : 3 < n) (hp : p.Leads t (HoldsNames t) (HoldsNames t)) :
      (group n p).Leads t (HoldsNames t) (HoldsNames t) :=
    leads_group hp fun caps a b h => h.cons fun hle => absurd hle (Nat.not_le_of_lt hn)
  have hname : (group 3 identifier).Leads t (HoldsNames t) (HoldsNames t) :=
    leads_group_identifier fun caps a b h hn => h.cons fun _ => .bare hn
  refine leads_append ?_ (hother (by decide) (leads_one _))
  refine leads_append ?_ (hblanks 0)
  refine leads_append ?_ (leads_opt (hother (by decide) (leads_lit _)))
  refine leads_append ?_ (hblanks 0)
  refine leads_append ?_
    (leads_alt (leads_quoted t (.inl rfl) 1) (leads_alt (leads_quoted t (.inr rfl) 2) hname))
  exact leads_append leads_start (leads_opt (leads_append (leads_lit _) (hblanks 1)))

theorem HoldsNames.text? {t n : List Char} {m : Match} (h : HoldsNames t m.captures) {k : Nat}
    (hk : k ≤ 3) (ht : m.text? t k = some n) : IsMemberName n := by
  simp only [Match.text?, Match.span?, Option.map_eq_some_iff] at ht
  obtain ⟨span, ⟨e, he, rfl⟩, rfl⟩ := ht
  have hkey : e.1 = k := by simpa using List.find?_some he
  exact h e (List.mem_of_find?_eq_some he) (hkey ▸ hk)

theorem isMemberName_of_parse? {t : List Char} {doc : Option String} {m : Member}
    (h : parse? t doc = some m) : IsMemberName m.name.toList := by
  simp only [parse?, Option.bind_eq_bind, Option.bind_eq_some_iff, Option.or_eq_some_iff] at h
  obtain ⟨found, hfound, n, hn, h⟩ := h
  cases h
  have hcaps : HoldsNames t found.captures :=
    Pattern.captures_of_find? (leads_head t) (fun e he => by cases he) hfound
  rw [String.toList_ofList]
  rcases hn with (h1 | ⟨-, h2⟩) | ⟨-, h3⟩
  · exact hcaps.text? (by decide) h1
  · exact hcaps.text? (by decide) h2
  · exact hcaps.text? (by decide) h3

/-- All members that are read go by names. -/
theorem Reads.wellNamed {doc : Option String} {t : List Char} {ms : List Member}
    (h : Reads doc t ms) : WellNamed ms := by
  induction h with
  | done => exact fun m hm => by cases hm
  | @next doc doc' t rest read later hr _ ih =>
    intro m hm
    rcases List.mem_append.1 hm with hm | hm
    · rw [round] at hr
      dsimp only at hr
      split at hr
      · cases hr
      · split at hr
        · cases hr
          cases hm
        · split at hr
          · cases hr
            cases hm
          · cases hr
            exact isMemberName_of_parse? (Option.mem_toList.1 hm)
    · exact ih m hm

theorem wellNamed_iff {ms : List Member} :
    WellNamed ms ↔ ∀ n ∈ names ms, IsMemberName n.toList := by
  simp [WellNamed, names]

/-- Merged members go by names when all that is merged does. -/
theorem WellNamed.merge {ms more : List Member} (h : WellNamed ms) (hmore : WellNamed more) :
    WellNamed (merge ms more) := by
  induction more generalizing ms with
  | nil => exact h
  | cons m more ih =>
    rw [merge_cons]
    refine ih ?_ fun m' hm' => hmore m' (List.mem_cons_of_mem _ hm')
    rw [wellNamed_iff] at h ⊢
    rw [names_put]
    split
    · exact h
    · intro n hn
      rcases List.mem_append.1 hn with hn | hn
      · exact h n hn
      · rw [List.mem_singleton.1 hn]
        exact hmore m List.mem_cons_self

end Member

namespace TypeScope

def MembersNamed (scope : TypeScope) : Prop := ∀ d ∈ scope.decls, Member.WellNamed d.2.own

theorem membersNamed_insert {scope : TypeScope} (h : scope.MembersNamed) (name : String)
    {decl : TypeDecl} (hdecl : Member.WellNamed decl.own) : (scope.insert name decl).MembersNamed := by
  intro d hd
  rw [insert] at hd
  split at hd
  · obtain ⟨old, hold, rfl⟩ := List.mem_map.1 hd
    split
    · exact hdecl
    · exact h old hold
  · rcases List.mem_append.1 hd with hd | hd
    · exact h d hd
    · rw [List.mem_singleton.1 hd]
      exact hdecl

/-- Members of a parsed file go by names, in interfaces and aliases alike. -/
theorem membersNamed_parse (t : List Char) : (parse t).MembersNamed := by
  have hinterfaces (ms : List Match) (scope : TypeScope) (hs : scope.MembersNamed) :
      (ms.foldl (addInterface t) scope).MembersNamed := by
    induction ms generalizing scope with
    | nil => exact hs
    | cons m ms ih =>
      refine ih _ ?_
      rw [addInterface]
      split
      · exact hs
      · exact membersNamed_insert hs _ (Member.reads_iff.2 rfl).wellNamed
  have haliases (ms : List Match) (scope : TypeScope) (hs : scope.MembersNamed) :
      (ms.foldl (addAlias t) scope).MembersNamed := by
    induction ms generalizing scope with
    | nil => exact hs
    | cons m ms ih => exact ih _ (membersNamed_insert hs _ fun m hm => by cases hm)
  refine haliases _ _ (hinterfaces _ _ fun d hd => ?_)
  cases hd

/-- A wrapper such as `Partial` gives members no new names. -/
theorem wrapped?_wellNamed {wrapper : List Char} {args : List (List Char)}
    {f : List Member → List Member} (h : wrapped? wrapper args = some f) {ms : List Member}
    (hms : Member.WellNamed ms) : Member.WellNamed (f ms) := by
  have hfilter (keep : Member → Bool) : Member.WellNamed (ms.filter keep) :=
    fun m hm => hms m (List.mem_filter.1 hm).1
  have hoptional (b : Bool) :
      Member.WellNamed (ms.map fun m => { m with optional := b }) := by
    intro m hm
    obtain ⟨m', hm', rfl⟩ := List.mem_map.1 hm
    exact hms m' hm'
  unfold wrapped? at h
  dsimp only at h
  split at h
  · cases h
    exact hfilter _
  · split at h
    · cases h
      exact hfilter _
    · split at h
      · cases h
        exact hoptional true
      · split at h
        · cases h
          exact hoptional false
        · cases h

/-- What a query starts from. -/
def Query.sofar : Query → List Member
  | .one _ => []
  | .all sofar _ => sofar

/-- Resolution keeps to the names of declared members and of the members of object types. -/
theorem Resolves.wellNamed {scope : TypeScope} {visiting : List (List Char)} {q : Query}
    {ms : List Member} (h : scope.Resolves visiting q ms) (hscope : scope.MembersNamed)
    (hq : Member.WellNamed q.sofar) : Member.WellNamed ms := by
  have hnil : Member.WellNamed [] := fun m hm => by cases hm
  induction h with
  | object _ hreads => exact hreads.wellNamed
  | bare => exact hnil
  | wrapped _ hw _ ih => exact wrapped?_wellNamed hw (ih hnil)
  | other _ _ _ _ _ ih => exact ih hnil
  | again => exact hnil
  | unknown => exact hnil
  | declared _ _ hdecl _ ih => exact (ih hnil).merge (hscope _ (mem_of_get? hdecl))
  | done => exact hq
  | next _ _ ihone ihall => exact ihall (hq.merge (ihone hnil))

end TypeScope

theorem DefaultValues.name_of_mem_applyTo {values : DefaultValues} {attributes : List Attribute}
    {a : Attribute} (h : a ∈ values.applyTo attributes) : ∃ b ∈ attributes, b.name = a.name := by
  obtain ⟨b, hb, rfl⟩ := List.mem_map.1 h
  refine ⟨b, hb, ?_⟩
  split
  · rfl
  · split <;> rfl

theorem TypeScope.isMemberName_of_attributesOf (text : List Char) (type : String) {a : Attribute}
    (h : a ∈ (TypeScope.parse text).attributesOf type) : IsMemberName a.name.toList := by
  obtain ⟨m, hm, rfl⟩ := List.mem_map.1 h
  exact (resolves_membersOf _ _).wellNamed (membersNamed_parse text) (fun m hm => by cases hm) m hm

/-- The attributes are the members of the type of the properties, with their defaults. -/
theorem Source.attributes_of_parse {text : String} {defaults hint : Option String} {s : Source}
    (h : parse text defaults hint = .ok s) : ∃ values : DefaultValues,
      s.attributes = values.applyTo
        ((s.propsType.map (TypeScope.parse text.toList).attributesOf).getD []) := by
  simp only [parse, bind, Except.bind, pure, Except.pure, throw, throwThe, MonadExceptOf.throw] at h
  cases hdecl : declaration? (Markup.mask (stripComments text.toList)) hint with
  | none =>
    rw [hdecl] at h
    cases h
  | some decl =>
    rw [hdecl] at h
    dsimp only at h
    cases hclose : balancedEnd? (Markup.mask (stripComments text.toList)) decl.paramsOpen with
    | none =>
      rw [hclose] at h
      cases h
    | some close =>
      rw [hclose] at h
      cases h
      exact ⟨_, rfl⟩

/-- Attributes go by names that a member can be written with, whatever the file says. -/
theorem Source.isMemberName_of_parse {text : String} {defaults hint : Option String} {s : Source}
    (h : parse text defaults hint = .ok s) {a : Attribute} (ha : a ∈ s.attributes) :
    IsMemberName a.name.toList := by
  obtain ⟨values, hvalues⟩ := attributes_of_parse h
  rw [hvalues] at ha
  obtain ⟨b, hb, hname⟩ := DefaultValues.name_of_mem_applyTo ha
  rw [← hname]
  cases hprops : s.propsType with
  | none =>
    rw [hprops] at hb
    cases hb
  | some type =>
    rw [hprops] at hb
    exact TypeScope.isMemberName_of_attributesOf _ type hb

end JsxToJinja
