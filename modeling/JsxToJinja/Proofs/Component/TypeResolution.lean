import JsxToJinja.Proofs.Component.DeclaredNames
import JsxToJinja.Proofs.Component.Members
import JsxToJinja.Proofs.Text.Pieces
import Mathlib.Logic.Relation

/-! Resolution of types. Each step shortens the type at hand or visits a declaration for the first
time, so resolution ends for every scope, and the members it gives have names of their own. Where no
declaration leads back to itself, the declarations under way play no part. -/
namespace JsxToJinja
open JsxToJinja.Text JsxToJinja.Code

/-! ### The form of a type -/

/-- A type is an object type, a wrapper with its arguments, or a name. -/
inductive TypeForm where
  | object (body : List Char)
  | generic (wrapper : List Char) (args : List (List Char))
  | named (name : List Char)

namespace TypeForm

def of (type : List Char) : TypeForm :=
  let t := trim type
  if t.head? == some '\x7b' then .object (groupInner t)
  else match genericParts? t with
  | some (wrapper, arguments) => .generic wrapper (splitTopLevel arguments [','])
  | none => .named (baseTypeName t)

/-- Without angle brackets a type goes by the last part of its path. -/
theorem of_plain {t : List Char} (ht : Trimmed t) (hhead : t.head? ≠ some '\x7b')
    (hangle : '<' ∉ t) : of t = .named (((splitOn ['.'] t).getLast?).getD t) := by
  have hfind : find? ['<'] t = none := by
    have := find?_plain hangle [] []
    rwa [List.append_nil] at this
  have hparts : genericParts? t = none := by
    rw [genericParts?, ht.trim_eq, hfind]
    rfl
  have htake : t.takeWhile (· != '<') = t := by
    have hall : ∀ c ∈ t, (c != '<') = true := fun c hc => by
      rw [bne_iff_ne]
      rintro rfl
      exact hangle hc
    have hfront : (t ++ []).takeWhile (· != '<') = t ++ [].takeWhile (· != '<') :=
      List.takeWhile_append_of_pos hall
    rwa [List.takeWhile_nil, List.append_nil] at hfront
  rw [of, ht.trim_eq]
  simp only [beq_false_of_ne hhead, hparts, Bool.false_eq_true, if_false]
  rw [baseTypeName, ht.trim_eq, htake, ht.trim_eq]

/-- A name stands for itself. -/
theorem of_name {n : List Char} (h : isName n = true) : of n = .named n := by
  have hhead : n.head? ≠ some '\x7b' := fun hc =>
    notMem_of_isName h (d := '\x7b') (by decide) (List.mem_of_mem_head? hc)
  rw [of_plain (trimmed_of_isName h) hhead (notMem_of_isName h (by decide)),
    splitOn_plain (notMem_of_isName h (by decide))]
  rfl

end TypeForm

/-- What a wrapper makes of the members of its first argument. Any other wrapper is looked up by its
own name. -/
def wrapped? (wrapper : List Char) (args : List (List Char)) :
    Option (List Member → List Member) :=
  let named (m : Member) : Bool := (TypeScope.keysOf args).contains m.name.toList
  if wrapper == "Omit".toList then some (·.filter (!named ·))
  else if wrapper == "Pick".toList then some (·.filter named)
  else if wrapper == "Partial".toList then some (·.map fun m => { m with optional := true })
  else if wrapper == "Required".toList then some (·.map fun m => { m with optional := false })
  else none

namespace TypeDecl

def supers : TypeDecl → List (List Char)
  | .interface parents _ => parents
  | .synonym type => splitTopLevel type ['&']

def own : TypeDecl → List Member
  | .interface _ members => members
  | .synonym _ => []

end TypeDecl

/-! ### Lengths -/

/-- No piece is longer than the text it is cut from. -/
theorem length_le_of_mem_splitTopLevel {t sep p : List Char} (h : p ∈ splitTopLevel t sep) :
    p.length ≤ t.length := by
  have hcut (ms : List Mark) (start : Nat) : ∀ q ∈ cutAt t sep ms start, q.length ≤ t.length := by
    induction ms generalizing start with
    | nil => simp [cutAt]
    | cons m ms ih =>
      intro q hq
      rw [cutAt] at hq
      split at hq
      · rcases List.mem_cons.1 hq with rfl | hq
        · simp only [slice, List.length_drop, List.length_take]
          omega
        · exact ih _ q hq
      · exact ih _ q hq
  rw [splitTopLevel] at h
  obtain ⟨q, hq, rfl⟩ := List.mem_map.1 (List.mem_filter.1 h).1
  refine Nat.le_trans (length_trim_le q) ?_
  split at hq
  · exact Nat.le_of_eq (congrArg List.length (List.mem_singleton.1 hq))
  · exact hcut _ _ q hq

theorem length_le_of_mem_splitOn {o : Char} {t p : List Char} (h : p ∈ splitOn [o] t) :
    p.length ≤ t.length := by
  have hin (ps : List (List Char)) (hp : p ∈ ps) : p.length ≤ ([o].intercalate ps).length := by
    induction ps with
    | nil => cases hp
    | cons q ps ih =>
      cases ps with
      | nil => simp [List.mem_singleton.1 hp]
      | cons r ps =>
        rw [List.intercalate_cons_cons, List.length_append, List.length_append]
        rcases List.mem_cons.1 hp with rfl | hp
        · omega
        · have := ih hp
          omega
  have := hin _ h
  rwa [intercalate_splitOn] at this

/-- The wrapper and each argument are shorter than the type. -/
theorem TypeForm.length_of_generic {type wrapper : List Char} {args : List (List Char)}
    (h : TypeForm.of type = .generic wrapper args) :
    wrapper.length < type.length ∧ ∀ a ∈ args, a.length < type.length := by
  have htrim := length_trim_le type
  rw [TypeForm.of] at h
  split at h
  · cases h
  split at h
  · rename_i w arguments hparts
    cases h
    rw [genericParts?, (trimmed_trim type).trim_eq] at hparts
    obtain ⟨i, hi, hparts⟩ := Option.bind_eq_some_iff.1 hparts
    have hlt := lt_length_of_find? hi
    split at hparts
    · cases hparts
    dsimp only at hparts
    split at hparts
    · have hw : (trim ((trim type).take i)).length ≤ i :=
        Nat.le_trans (length_trim_le _) (List.length_take_le i _)
      cases hparts
      constructor
      · cases hlast : (splitOn ['.'] (trim ((trim type).take i))).getLast? with
        | none =>
          rw [Option.getD_none]
          omega
        | some p =>
          have := length_le_of_mem_splitOn (List.mem_of_getLast? hlast)
          rw [Option.getD_some]
          omega
      · intro a ha
        have := length_le_of_mem_splitTopLevel ha
        simp only [List.length_dropLast, List.length_drop] at this
        omega
    · cases hparts
  · cases h

namespace TypeScope

/-! ### Resolution as a relation -/

/-- What is asked for: the members of one type, or members merged with those of some types. -/
inductive Query where
  | one (type : List Char)
  | all (sofar : List Member) (types : List (List Char))

/-- Resolving with the given names under way. Each premise is a resolution that is carried out on the
way, also the one of the first argument of a wrapper that is looked up by its own name. -/
inductive Resolves (scope : TypeScope) : List (List Char) → Query → List Member → Prop
  | object {visiting : List (List Char)} {type body : List Char} {ms : List Member} :
      TypeForm.of type = .object body → Member.Reads none body ms →
      Resolves scope visiting (.one type) ms
  | bare {visiting : List (List Char)} {type wrapper : List Char} :
      TypeForm.of type = .generic wrapper [] → Resolves scope visiting (.one type) []
  | wrapped {visiting : List (List Char)} {type wrapper target : List Char}
      {more : List (List Char)} {f : List Member → List Member} {ms : List Member} :
      TypeForm.of type = .generic wrapper (target :: more) →
      wrapped? wrapper (target :: more) = some f → Resolves scope visiting (.one target) ms →
      Resolves scope visiting (.one type) (f ms)
  | other {visiting : List (List Char)} {type wrapper target : List Char}
      {more : List (List Char)} {unused ms : List Member} :
      TypeForm.of type = .generic wrapper (target :: more) →
      wrapped? wrapper (target :: more) = none → Resolves scope visiting (.one target) unused →
      Resolves scope visiting (.one wrapper) ms → Resolves scope visiting (.one type) ms
  | again {visiting : List (List Char)} {type name : List Char} :
      TypeForm.of type = .named name → name ∈ visiting → Resolves scope visiting (.one type) []
  | unknown {visiting : List (List Char)} {type name : List Char} :
      TypeForm.of type = .named name → name ∉ visiting → scope.get? (String.ofList name) = none →
      Resolves scope visiting (.one type) []
  | declared {visiting : List (List Char)} {type name : List Char} {decl : TypeDecl}
      {inherited : List Member} :
      TypeForm.of type = .named name → name ∉ visiting →
      scope.get? (String.ofList name) = some decl →
      Resolves scope (name :: visiting) (.all [] decl.supers) inherited →
      Resolves scope visiting (.one type) (Member.merge inherited decl.own)
  | done {visiting : List (List Char)} {sofar : List Member} :
      Resolves scope visiting (.all sofar []) sofar
  | next {visiting : List (List Char)} {sofar ms out : List Member} {type : List Char}
      {types : List (List Char)} :
      Resolves scope visiting (.one type) ms →
      Resolves scope visiting (.all (Member.merge sofar ms) types) out →
      Resolves scope visiting (.all sofar (type :: types)) out

variable {scope : TypeScope} {visiting : List (List Char)} {ms : List Member}

/-- The form of a type and what is known of its name decide which rule applies. -/
theorem Resolves.unique {q : Query} {ms ms' : List Member} (h : scope.Resolves visiting q ms)
    (h' : scope.Resolves visiting q ms') : ms = ms' := by
  induction h generalizing ms' with
  | object _ hr =>
    cases h' with
    | object _ hr' => grind [hr.unique]
    | _ => grind
  | _ => cases h' <;> grind

/-! ### Resolution comes to an end -/

/-- One step of resolution, by the form of the type. -/
theorem membersFrom_succ (scope : TypeScope) (fuel : Nat) (visiting : List (List Char))
    (type : List Char) :
    membersFrom scope (fuel + 1) visiting type =
      match TypeForm.of type with
      | .object body => Member.parseAll body
      | .generic _ [] => []
      | .generic wrapper (target :: more) =>
        match wrapped? wrapper (target :: more) with
        | some f => f (membersFrom scope fuel visiting target)
        | none => membersFrom scope fuel visiting wrapper
      | .named name =>
        if visiting.contains name then [] else
          match scope.get? (String.ofList name) with
          | none => []
          | some decl =>
            Member.merge (decl.supers.foldl (fun acc p =>
              Member.merge acc (membersFrom scope fuel (name :: visiting) p)) []) decl.own := by
  rw [membersFrom, TypeForm.of]
  dsimp only
  split
  · rfl
  · cases genericParts? (trim type) with
    | none =>
      dsimp only
      split
      · rfl
      · cases scope.get? (String.ofList (baseTypeName (trim type))) with
        | none => rfl
        | some decl => cases decl <;> rfl
    | some parts =>
      obtain ⟨wrapper, arguments⟩ := parts
      dsimp only
      cases splitTopLevel arguments [','] with
      | nil => rfl
      | cons target more =>
        dsimp only [List.head?_cons]
        rw [wrapped?]
        dsimp only
        split
        · rfl
        split
        · rfl
        split
        · rfl
        split
        · rfl
        · rfl

def unvisited (scope : TypeScope) (visiting : List (List Char)) : Nat :=
  (scope.decls.filter fun d => !visiting.contains d.1.toList).length

theorem mem_of_get? {name : String} {decl : TypeDecl} (h : scope.get? name = some decl) :
    (name, decl) ∈ scope.decls := by
  obtain ⟨d, hd, rfl⟩ := Option.map_eq_some_iff.1 h
  have hname : d.1 = name := by simpa using List.find?_some hd
  exact hname ▸ List.mem_of_find?_eq_some hd

theorem unvisited_lt {name : List Char} {decl : TypeDecl}
    (h : scope.get? (String.ofList name) = some decl) (hv : name ∉ visiting) :
    scope.unvisited (name :: visiting) < scope.unvisited visiting := by
  have hfilter : (scope.decls.filter fun d => !(name :: visiting).contains d.1.toList) =
      (scope.decls.filter fun d => !visiting.contains d.1.toList).filter fun d =>
        d.1.toList != name := by
    rw [List.filter_filter]
    congr 1
    funext d
    simp only [List.contains_cons, Bool.not_or, bne]
  rw [unvisited, unvisited, hfilter, List.length_filter_lt_length_iff_exists]
  refine ⟨_, List.mem_filter.2 ⟨mem_of_get? h, ?_⟩, ?_⟩
  · simpa using hv
  · simp

/-- Visiting one more declaration counts for more than any text that a declaration holds. -/
def weight (scope : TypeScope) (longest : Nat) (visiting : List (List Char)) (type : List Char) :
    Nat :=
  scope.unvisited visiting * (longest + 2) + type.length + 1

theorem resolves_foldl {g : List Char → List Member} (types : List (List Char))
    (h : ∀ p ∈ types, scope.Resolves visiting (.one p) (g p)) (sofar : List Member) :
    scope.Resolves visiting (.all sofar types)
      (types.foldl (fun acc p => Member.merge acc (g p)) sofar) := by
  induction types generalizing sofar with
  | nil => exact .done
  | cons p types ih => exact .next (h p (by simp)) (ih (fun q hq => h q (by simp [hq])) _)

/-- With enough steps members are resolved as the relation says, whatever is under way. -/
theorem resolves_membersFrom (longest : Nat) {fuel : Nat} {type : List Char}
    (hlong : ∀ d ∈ scope.decls, ∀ p ∈ d.2.supers, p.length ≤ longest)
    (hfuel : scope.weight longest visiting type ≤ fuel) :
    scope.Resolves visiting (.one type) (membersFrom scope fuel visiting type) := by
  induction fuel generalizing visiting type with
  | zero => simp [weight] at hfuel
  | succ fuel ih =>
    have hshort {t : List Char} (ht : t.length < type.length) :
        scope.Resolves visiting (.one t) (membersFrom scope fuel visiting t) := by
      refine ih ?_
      rw [weight] at hfuel ⊢
      omega
    rw [membersFrom_succ]
    cases hf : TypeForm.of type with
    | object body => exact .object hf (Member.reads_iff.2 rfl)
    | generic wrapper args =>
      obtain ⟨hwrapper, hargs⟩ := TypeForm.length_of_generic hf
      cases args with
      | nil => exact .bare hf
      | cons target more =>
        have htarget := hshort (hargs target (by simp))
        dsimp only
        cases hw : wrapped? wrapper (target :: more) with
        | some f => exact .wrapped hf hw htarget
        | none => exact .other hf hw htarget (hshort hwrapper)
    | named name =>
      dsimp only
      split
      · rename_i hv
        exact .again hf (List.contains_iff_mem.1 hv)
      · rename_i hv
        have hv : name ∉ visiting := fun hm => hv (List.contains_iff_mem.2 hm)
        cases hg : scope.get? (String.ofList name) with
        | none => exact .unknown hf hv hg
        | some decl =>
          refine .declared hf hv hg (resolves_foldl _ (fun p hp => ih ?_) [])
          have hp : p.length ≤ longest := hlong _ (mem_of_get? hg) p hp
          have hlt := unvisited_lt hg hv
          have hmul : (scope.unvisited (name :: visiting) + 1) * (longest + 2) ≤
              scope.unvisited visiting * (longest + 2) := Nat.mul_le_mul_right _ hlt
          rw [Nat.add_mul] at hmul
          rw [weight] at hfuel ⊢
          omega

private theorem le_foldl_max {f : α → Nat} (xs : List α) (start : Nat) :
    start ≤ xs.foldl (fun n x => max n (f x)) start ∧
      ∀ x ∈ xs, f x ≤ xs.foldl (fun n x => max n (f x)) start := by
  induction xs generalizing start with
  | nil => simp
  | cons x xs ih =>
    obtain ⟨hstart, hall⟩ := ih (max start (f x))
    rw [List.foldl_cons]
    refine ⟨by omega, fun y hy => ?_⟩
    rcases List.mem_cons.1 hy with rfl | hy
    · omega
    · exact hall y hy

theorem length_le_declLength {decl : TypeDecl} {p : List Char} (h : p ∈ decl.supers) :
    p.length ≤ declLength decl := by
  cases decl with
  | interface parents members => exact (le_foldl_max parents 0).2 p h
  | synonym type => exact length_le_of_mem_splitTopLevel h

def longest (scope : TypeScope) (start : Nat) : Nat :=
  scope.decls.foldl (fun n d => max n (declLength d.2)) start

theorem length_le_longest (scope : TypeScope) (start : Nat) :
    start ≤ scope.longest start ∧
      ∀ d ∈ scope.decls, ∀ p ∈ d.2.supers, p.length ≤ scope.longest start := by
  obtain ⟨hstart, hall⟩ := le_foldl_max scope.decls start
  exact ⟨hstart, fun d hd p hp => Nat.le_trans (length_le_declLength hp) (hall d hd)⟩

/-- Every resolution ends, whatever the scope, and the members of a type are its result. -/
theorem resolves_membersOf (scope : TypeScope) (type : List Char) :
    scope.Resolves [] (.one type) (scope.membersOf type) := by
  obtain ⟨hstart, hlong⟩ := scope.length_le_longest type.length
  refine resolves_membersFrom (scope.longest type.length) hlong ?_
  have hlen : scope.unvisited [] ≤ scope.decls.length := List.length_filter_le _ _
  have hmul := Nat.mul_le_mul_right (scope.longest type.length + 2) hlen
  rw [weight, stepBound, ← longest, Nat.add_mul]
  omega

theorem exists_resolves (scope : TypeScope) (visiting : List (List Char)) (type : List Char) :
    ∃ ms, scope.Resolves visiting (.one type) ms :=
  ⟨_, resolves_membersFrom (scope.longest 0) (scope.length_le_longest 0).2 (Nat.le_refl _)⟩

theorem resolves_iff {type : List Char} :
    scope.Resolves [] (.one type) ms ↔ ms = scope.membersOf type := by
  constructor
  · exact fun h => h.unique (scope.resolves_membersOf type)
  · rintro rfl
    exact scope.resolves_membersOf type

/-! ### Names of the members -/

theorem Resolves.nodup_all {sofar out : List Member} {types : List (List Char)}
    (h : scope.Resolves visiting (.all sofar types) out) (hs : (Member.names sofar).Nodup) :
    (Member.names out).Nodup := by
  induction types generalizing sofar with
  | nil =>
    cases h with
    | done => exact hs
  | cons p types ih =>
    cases h with
    | next _ hrest => exact ih hrest (Member.nodup_merge hs _)

/-- A declaration has at most one member of a name. -/
theorem Resolves.nodup_named {type name : List Char} (h : scope.Resolves visiting (.one type) ms)
    (hf : TypeForm.of type = .named name) : (Member.names ms).Nodup := by
  cases h with
  | again => exact List.nodup_nil
  | unknown => exact List.nodup_nil
  | declared _ _ _ hr => exact Member.nodup_merge (hr.nodup_all List.nodup_nil) _
  | object hf' => cases hf.symm.trans hf'
  | bare hf' => cases hf.symm.trans hf'
  | wrapped hf' => cases hf.symm.trans hf'
  | other hf' => cases hf.symm.trans hf'

/-! ### Declarations that do not lead back to themselves -/

/-- The name that a type is looked up by, behind its wrappers. -/
inductive LooksUp : List Char → List Char → Prop
  | named {type name : List Char} : TypeForm.of type = .named name → LooksUp type name
  | wrapped {type wrapper target name : List Char} {more : List (List Char)} :
      TypeForm.of type = .generic wrapper (target :: more) →
      (wrapped? wrapper (target :: more)).isSome = true → LooksUp target name → LooksUp type name
  | other {type wrapper target name : List Char} {more : List (List Char)} :
      TypeForm.of type = .generic wrapper (target :: more) →
      wrapped? wrapper (target :: more) = none → LooksUp wrapper name → LooksUp type name

theorem LooksUp.eq_of_name {n m : List Char} (h : LooksUp n m) (hn : isName n = true) : m = n := by
  have hf := TypeForm.of_name hn
  cases h with
  | named hf' =>
    cases hf.symm.trans hf'
    rfl
  | wrapped hf' => cases hf.symm.trans hf'
  | other hf' => cases hf.symm.trans hf'

/-- The declaration of the first name takes members from that of the second. -/
def Refers (scope : TypeScope) (n m : List Char) : Prop :=
  ∃ decl, scope.get? (String.ofList n) = some decl ∧ ∃ p ∈ decl.supers, LooksUp p m

/-- No declaration that the name leads to leads back to itself. -/
def AcyclicFrom (scope : TypeScope) (n : List Char) : Prop :=
  ∀ m, Relation.ReflTransGen scope.Refers n m → ¬ Relation.TransGen scope.Refers m m

def Query.types : Query → List (List Char)
  | .one type => [type]
  | .all _ types => types

def Reaches (scope : TypeScope) (q : Query) (m : List Char) : Prop :=
  ∃ p ∈ q.types, ∃ n, LooksUp p n ∧ Relation.ReflTransGen scope.Refers n m

theorem reaches_one {type m : List Char} :
    scope.Reaches (.one type) m ↔ ∃ n, LooksUp type n ∧ Relation.ReflTransGen scope.Refers n m := by
  simp [Reaches, Query.types]

/-- The query comes across no name of either list, and across none that leads back to itself. -/
def Clear (scope : TypeScope) (visiting others : List (List Char)) (q : Query) : Prop :=
  ∀ m, scope.Reaches q m → m ∉ visiting ∧ m ∉ others ∧ ¬ Relation.TransGen scope.Refers m m

theorem Clear.mono {others : List (List Char)} {q q' : Query} (h : scope.Clear visiting others q)
    (hsub : ∀ m, scope.Reaches q' m → scope.Reaches q m) : scope.Clear visiting others q' :=
  fun m hm => h m (hsub m hm)

/-- Behind a name that is clear, the name itself can be under way. -/
theorem Clear.supers {others : List (List Char)} {type name : List Char} {decl : TypeDecl}
    (h : scope.Clear visiting others (.one type)) (hf : TypeForm.of type = .named name)
    (hg : scope.get? (String.ofList name) = some decl) (sofar : List Member) :
    scope.Clear (name :: visiting) (name :: others) (.all sofar decl.supers) := by
  rintro m ⟨p, hp, n, hn, hnm⟩
  have hbehind : Relation.TransGen scope.Refers name m := .head' ⟨decl, hg, p, hp, hn⟩ hnm
  have hname := h name (reaches_one.2 ⟨name, .named hf, .refl⟩)
  have hm := h m (reaches_one.2 ⟨name, .named hf, hbehind.to_reflTransGen⟩)
  have hne : m ≠ name := by
    rintro rfl
    exact hname.2.2 hbehind
  simpa [hne] using hm

/-- Names under way that the query does not come across make no difference. -/
theorem Resolves.elsewhere {q : Query} (h : scope.Resolves visiting q ms)
    {others : List (List Char)} (hc : scope.Clear visiting others q) :
    scope.Resolves others q ms := by
  induction h generalizing others with
  | object hf hr => exact .object hf hr
  | bare hf => exact .bare hf
  | wrapped hf hw _ ih =>
    refine .wrapped hf hw (ih (hc.mono fun m hm => ?_))
    obtain ⟨n, hn, hnm⟩ := reaches_one.1 hm
    exact reaches_one.2 ⟨n, .wrapped hf (by rw [hw]; rfl) hn, hnm⟩
  | @other _ _ _ target _ _ _ hf hw _ _ _ ih =>
    obtain ⟨unused, hunused⟩ := scope.exists_resolves others target
    refine .other hf hw hunused (ih (hc.mono fun m hm => ?_))
    obtain ⟨n, hn, hnm⟩ := reaches_one.1 hm
    exact reaches_one.2 ⟨n, .other hf hw hn, hnm⟩
  | again hf hin => exact absurd hin (hc _ (reaches_one.2 ⟨_, .named hf, .refl⟩)).1
  | unknown hf _ hg =>
    exact .unknown hf (hc _ (reaches_one.2 ⟨_, .named hf, .refl⟩)).2.1 hg
  | declared hf _ hg _ ih =>
    exact .declared hf (hc _ (reaches_one.2 ⟨_, .named hf, .refl⟩)).2.1 hg (ih (hc.supers hf hg []))
  | done => exact .done
  | next _ _ ih ihs =>
    refine .next (ih (hc.mono fun m hm => ?_)) (ihs (hc.mono fun m hm => ?_))
    · obtain ⟨n, hn⟩ := reaches_one.1 hm
      exact ⟨_, List.mem_cons_self, n, hn⟩
    · obtain ⟨p, hp, hn⟩ := hm
      exact ⟨p, List.mem_cons_of_mem _ hp, hn⟩

/-- A declaration that does not lead back to itself has the members of its supertypes, each resolved
from the start, merged from left to right, and then its own. -/
theorem membersOf_of_acyclic {n : List Char} (hn : isName n = true) {decl : TypeDecl}
    (hg : scope.get? (String.ofList n) = some decl) (hacyclic : scope.AcyclicFrom n) :
    scope.membersOf n =
      Member.merge ((decl.supers.map scope.membersOf).foldl Member.merge []) decl.own := by
  have hclear : scope.Clear [] [] (.one n) := by
    intro m hm
    obtain ⟨k, hk, hkm⟩ := reaches_one.1 hm
    obtain rfl := hk.eq_of_name hn
    exact ⟨List.not_mem_nil, List.not_mem_nil, hacyclic m hkm⟩
  have hsuper (p : List Char) (hp : p ∈ decl.supers) :
      scope.Resolves [n] (.one p) (scope.membersOf p) := by
    refine (scope.resolves_membersOf p).elsewhere fun m hm => ?_
    obtain ⟨k, hk⟩ := reaches_one.1 hm
    obtain ⟨-, hone, hcycle⟩ := hclear.supers (TypeForm.of_name hn) hg [] m ⟨p, hp, k, hk⟩
    exact ⟨List.not_mem_nil, hone, hcycle⟩
  have hall := resolves_foldl decl.supers hsuper []
  rw [← List.foldl_map (f := scope.membersOf) (g := Member.merge)] at hall
  exact (resolves_iff.1 (.declared (TypeForm.of_name hn) (by simp) hg hall)).symm

theorem membersOf_wrapped {type wrapper target : List Char} {more : List (List Char)}
    {f : List Member → List Member} (hf : TypeForm.of type = .generic wrapper (target :: more))
    (hw : wrapped? wrapper (target :: more) = some f) :
    scope.membersOf type = f (scope.membersOf target) :=
  (resolves_iff.1 (.wrapped hf hw (scope.resolves_membersOf target))).symm

/-- Whatever the declarations of a scope refer to, resolution ends, and a declared name has attributes
of different names. Where nothing leads back to itself, an interface has the members of its parents,
each resolved from the start, merged from left to right, and then its own; so has an alias of the
types that it joins, and a wrapper changes the members of the type that it wraps. -/
theorem resolution_ends_and_merges_in_order (scope : TypeScope) (hscope : scope.WellNamed) :
    (∀ visiting type, ∃ ms, scope.Resolves visiting (.one type) ms) ∧
    (∀ n ∈ scope.names, scope.Resolves [] (.one n.toList) (scope.membersOf n.toList) ∧
      ((scope.attributesOf n).map (·.name)).Nodup) ∧
    (∀ n parents own, scope.get? n = some (.interface parents own) →
      scope.AcyclicFrom n.toList →
      scope.attributesOf n = (Member.merge
        ((parents.map scope.membersOf).foldl Member.merge []) own).map scope.describe) ∧
    (∀ n type, scope.get? n = some (.synonym type) → scope.AcyclicFrom n.toList →
      scope.membersOf n.toList =
        ((splitTopLevel type ['&']).map scope.membersOf).foldl Member.merge []) ∧
    ∀ type wrapper target more f, TypeForm.of type = .generic wrapper (target :: more) →
      wrapped? wrapper (target :: more) = some f →
      scope.membersOf type = f (scope.membersOf target) := by
  have hmem {n : String} {decl : TypeDecl} (hg : scope.get? n = some decl) :
      isName n.toList = true := hscope n (List.mem_map_of_mem (mem_of_get? hg))
  have hget {n : String} {decl : TypeDecl} (hg : scope.get? n = some decl) :
      scope.get? (String.ofList n.toList) = some decl := by rwa [String.ofList_toList]
  refine ⟨scope.exists_resolves, fun n hn => ⟨scope.resolves_membersOf _, ?_⟩, ?_, ?_, ?_⟩
  · have hnames : (scope.attributesOf n).map (·.name) = Member.names (scope.membersOf n.toList) := by
      rw [attributesOf, List.map_map]
      rfl
    rw [hnames]
    exact (scope.resolves_membersOf _).nodup_named (TypeForm.of_name (hscope n hn))
  · intro n parents own hg hacyclic
    rw [attributesOf, membersOf_of_acyclic (hmem hg) (hget hg) hacyclic]
    rfl
  · intro n type hg hacyclic
    exact membersOf_of_acyclic (hmem hg) (hget hg) hacyclic
  · exact fun type wrapper target more f => membersOf_wrapped

/-- Ranks that fall along the references rule out a way back. -/
theorem acyclicFrom_of_rank {rank : List Char → Nat}
    (h : ∀ n m, scope.Refers n m → rank m < rank n) (n : List Char) : scope.AcyclicFrom n := by
  intro m _ hcycle
  have hfall {a b : List Char} (hab : Relation.TransGen scope.Refers a b) : rank b < rank a := by
    induction hab with
    | single hab => exact h _ _ hab
    | tail _ hbc ih => exact Nat.lt_trans (h _ _ hbc) ih
  exact Nat.lt_irrefl _ (hfall hcycle)

def diamond : TypeScope where
  decls :=
    let member (name type : String) : Member := ⟨name, false, type.toList, none⟩
    [("Base", .interface [] [member "size" "string", member "tone" "string"]),
      ("Left", .interface ["Base".toList] [member "tone" "number"]),
      ("Right", .interface ["Base".toList] [member "icon" "string"]),
      ("Both", .interface ["Left".toList, "Right".toList]
        [member "size" "boolean", member "label" "string"])]

theorem falls_diamond (n m : List Char) (h : diamond.Refers n m) :
    (diamond.names.map String.toList).idxOf m < (diamond.names.map String.toList).idxOf n := by
  obtain ⟨decl, hg, p, hp, hl⟩ := h
  have hplain : ∀ d ∈ diamond.decls, ∀ p ∈ d.2.supers, isName p = true ∧
      (diamond.names.map String.toList).idxOf p <
        (diamond.names.map String.toList).idxOf d.1.toList := by decide
  obtain ⟨hname, hlt⟩ := hplain _ (mem_of_get? hg) p hp
  rwa [hl.eq_of_name hname, ← String.toList_ofList (l := n)]

/-- The shared parent comes along both paths, so the second one brings back its tone. -/
theorem diamond_merges_along_both_paths :
    diamond.WellNamed ∧ diamond.AcyclicFrom "Both".toList ∧
      (diamond.attributesOf "Both").map (fun a => (a.name, a.types)) =
        [("size", [.boolean]), ("tone", [.string]), ("icon", [.string]), ("label", [.string])] := by
  have hscope : diamond.WellNamed := by
    unfold WellNamed
    decide
  have hacyclic : diamond.AcyclicFrom "Both".toList := acyclicFrom_of_rank falls_diamond _
  obtain ⟨-, -, hinterface, -⟩ := resolution_ends_and_merges_in_order diamond hscope
  refine ⟨hscope, hacyclic, ?_⟩
  rw [hinterface "Both" _ _ rfl hacyclic]
  decide

end TypeScope

end JsxToJinja
