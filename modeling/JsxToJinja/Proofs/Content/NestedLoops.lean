import JsxToJinja.Proofs.Content.CodeContent
import JsxToJinja.Proofs.Content.EmbeddedText
import JsxToJinja.Proofs.Content.LoopScopes

/-! Nested iterations over member paths. Every path is found in the content in the order in which it is
written, inside the loops of the callbacks around it, and keeps its scope just where it is safe. -/
namespace JsxToJinja
open JsxToJinja.Text JsxToJinja.Code JsxToJinja.Markup
open JsxToJinja.Qualified (Around)

def Loop.vars (l : Loop) : Content.LoopVars := ⟨l.itemVar, l.indexVar⟩

namespace Content

/-! ### Code in content -/

namespace Found

def under (v : LoopVars) (f : Found) : Found := { f with loops := f.loops ++ [v] }

/-- Content that is rewritten is rewritten where the code stands itself. -/
def rewritten (g : String → String) (f : Found) : Found :=
  if f.place = .direct then { f with code := g f.code } else f

theorem rewritten_under (g : String → String) (v : LoopVars) (f : Found) :
    (f.under v).rewritten g = (f.rewritten g).under v := by
  rw [rewritten, rewritten, under]
  split <;> rfl

end Found

def usageCodes (u : Usage) : List Found :=
  (u.props.filterMap fun p => match p.value with
    | .expression e => some ⟨[], .direct, e⟩
    | _ => none) ++ u.spreads.map (⟨[], .spread, ·⟩)

mutual

def found : Content → List Found
  | .literal _ => []
  | .reference n none => [⟨[], .direct, n⟩]
  | .reference n (some r) => ⟨[], .direct, n⟩ :: found r
  | .element u cs | .component u cs => usageCodes u ++ foundAll cs
  | .conditional c cs => ⟨[], .direct, c⟩ :: foundAll cs
  | .conditionalComponent c u cs => ⟨[], .direct, c⟩ :: (usageCodes u ++ foundAll cs)
  | .fallback chain => chain.map (⟨[], .direct, ·⟩)
  | .ternary c a b => ⟨[], .direct, c⟩ :: (found a ++ found b)
  | .branches bs => foundBranches bs
  | .arrayMap l cs => ⟨[], .direct, l.array⟩ ::
      (l.props.map (fun p => ⟨[l.vars], .copied, p.2⟩) ++ (foundAll cs).map (Found.under l.vars))
  | .call _ a => [⟨[], .direct, a⟩]
  | .unsupported c => [⟨[], .direct, c⟩]

def foundAll : List Content → List Found
  | [] => []
  | c :: cs => found c ++ foundAll cs

def foundBranches : List Branch → List Found
  | [] => []
  | .mk c body :: bs => c.toList.map (⟨[], .direct, ·⟩) ++ foundAll body ++ foundBranches bs

end

theorem foundAll_append (a b : List Content) : foundAll (a ++ b) = foundAll a ++ foundAll b := by
  induction a with
  | nil => rfl
  | cons c a ih => rw [List.cons_append, foundAll, foundAll, ih, List.append_assoc]

theorem usageCodes_qualifyProps (g : String → String) (u : Usage) :
    usageCodes (qualifyProps g u) = (usageCodes u).map (Found.rewritten g) := by
  simp only [usageCodes, qualifyProps, List.map_append, List.map_map, List.map_filterMap,
    List.filterMap_map]
  congr 1
  · refine List.filterMap_congr fun p _ => ?_
    obtain ⟨name, value⟩ := p
    cases value <;> rfl

mutual

/-- Rewriting code rewrites what is found, and keeps the loops around it. -/
theorem found_mapCode (g : String → String) :
    (c : Content) → found (mapCode g c) = (found c).map (Found.rewritten g)
  | .literal _ => rfl
  | .reference _ none => rfl
  | .reference n (some r) => by simp [mapCode, found, found_mapCode g r, Found.rewritten]
  | .element u cs | .component u cs => by
    simp [mapCode, found, usageCodes_qualifyProps, foundAll_mapCodeAll g cs]
  | .conditional c cs => by simp [mapCode, found, foundAll_mapCodeAll g cs, Found.rewritten]
  | .conditionalComponent c u cs => by
    simp [mapCode, found, usageCodes_qualifyProps, foundAll_mapCodeAll g cs, Found.rewritten]
  | .fallback chain => by simp [mapCode, found, Found.rewritten, Function.comp_def]
  | .ternary c a b => by simp [mapCode, found, found_mapCode g a, found_mapCode g b, Found.rewritten]
  | .branches bs => by simp [mapCode, found, foundBranches_mapCode g bs]
  | .arrayMap l cs => by
    have hcopied (t : String) : Found.rewritten g ⟨[l.vars], .copied, t⟩ = ⟨[l.vars], .copied, t⟩ := rfl
    simp [mapCode, found, foundAll_mapCodeAll g cs, hcopied, Found.rewritten_under, Function.comp_def]
    exact ⟨rfl, rfl⟩
  | .call _ _ => rfl
  | .unsupported _ => rfl

theorem foundAll_mapCodeAll (g : String → String) :
    (cs : List Content) → foundAll (mapCodeAll g cs) = (foundAll cs).map (Found.rewritten g)
  | [] => rfl
  | c :: cs => by simp [mapCodeAll, foundAll, found_mapCode g c, foundAll_mapCodeAll g cs]

theorem foundBranches_mapCode (g : String → String) :
    (bs : List Branch) → foundBranches (mapCodeBranches g bs) = (foundBranches bs).map (Found.rewritten g)
  | [] => rfl
  | .mk c body :: bs => by
    cases c <;> simp [mapCodeBranches, mapCodeBranch, foundBranches, foundAll_mapCodeAll g body,
      foundBranches_mapCode g bs, Found.rewritten]

end

/-! ### Written iterations -/

/-- Markup whose code is paths and iterations that render an element, which may stand in parentheses. -/
inductive Nest : Part → Type where
  | closed (tag : Tag true) : Nest .element
  | paired (tag : Tag false) (inner : Nest .inside) : Nest .element
  | nested (e : Nest .element) : Nest .child
  | path (around : Around) (text : List Char) : Nest .child
  | loop (around : Around) (array sign : List Char) (params : Parameters) (gap : Around)
    (parens : List Around) (body : Nest .element) : Nest .child
  | last (text : List Char) : Nest .inside
  | next (text : List Char) (child : Nest .child) (rest : Nest .inside) : Nest .inside

def wrapped (parens : List Around) (e : Written (.markup .element)) : Written .code :=
  parens.foldr .paren (.embedded e)

def valueCode : PropValue → String
  | .literal text => "'" ++ text ++ "'"
  | .expression c => c
  | .flag => "true"

namespace Nest

variable {part : Part}

def written : {part : Part} → Nest part → Written (.markup part)
  | _, closed tag => .closed tag
  | _, paired tag inner => .paired tag inner.written
  | _, nested e => .nested e.written
  | _, path around t => .braces around (.path t)
  | _, loop around array sign params gap parens body =>
    .braces around (.loop array sign params.text gap (wrapped parens body.written))
  | _, last t => .last t
  | _, next t child rest => .next t child.written rest.written

def text (n : Nest part) : List Char := n.written.text

def opening : Nest .element → OpeningTag
  | closed tag | paired tag _ => tag.opening

/-- Code of a tag that stands in no callback yet. -/
def tagUses (tag : OpeningTag) : List Use :=
  (usageCodes ⟨tag.name, tag.props, tag.spreads⟩).map fun f => ⟨[], f.place, f.code, f.code⟩

def copies (params : Parameters) (tag : OpeningTag) : List Use :=
  (tag.props.filter (·.name != "key")).map fun p =>
    ⟨[params], .copied, valueCode p.value, propCode p.value⟩

/-- Code of the markup in the order in which it is written, with the callbacks around it; the properties
of a tag that makes up the body of an iteration stand in front of it once more. -/
def uses : {part : Part} → Nest part → List Use
  | _, closed tag => tagUses tag.opening
  | _, paired tag inner => tagUses tag.opening ++ inner.uses
  | _, nested e => e.uses
  | _, path _ t => [⟨[], .direct, String.ofList t, code t⟩]
  | _, loop _ array _ params _ _ body => ⟨[], .direct, String.ofList array, code array⟩ ::
    (copies params body.opening ++
      body.uses.map fun u => { u with callbacks := u.callbacks ++ [params] })
  | _, last _ => []
  | _, next _ child rest => child.uses ++ rest.uses

/-- Texts are inert, given whether the markup stands inside an expression, and all code is paths. -/
def Fits : {part : Part} → Nest part → Bool → Prop
  | _, closed tag, _ => ∀ u ∈ tagUses tag.opening, IsPath u.code.toList
  | _, paired tag inner, inside =>
    (∀ u ∈ tagUses tag.opening, IsPath u.code.toList) ∧ inner.Fits inside
  | _, nested e, inside => e.Fits inside
  | _, path _ t, _ => IsPath t
  | _, loop _ array sign params _ _ body, _ =>
    IsPath array ∧ (Blank sign ∨ sign = ['?']) ∧ params.Fits ∧ body.Fits true
  | _, last t, inside => InertText inside t
  | _, next t child rest, inside => InertText inside t ∧ child.Fits inside ∧ rest.Fits inside

end Nest

section
variable (parens : List Around) (e : Written (.markup .element))

@[simp] theorem fits_wrapped : (wrapped parens e).Fits true ↔ e.Fits true := by
  induction parens with
  | nil => rfl
  | cons a parens ih => exact ih

@[simp] theorem element?_wrapped : (wrapped parens e).element? = some e := by
  induction parens with
  | nil => rfl
  | cons a parens ih => exact ih

@[simp] theorem content_wrapped : (wrapped parens e).content false = e.content := by
  induction parens with
  | nil => rfl
  | cons a parens ih => exact ih

end

/-- A fragment has nothing in its tag. -/
theorem usageCodes_of_fragment {closed : Bool} (tag : Tag closed) (h : tag.opening.name.isEmpty = true) :
    usageCodes ⟨tag.opening.name, tag.opening.props, tag.opening.spreads⟩ = [] := by
  obtain ⟨opening, text, ht⟩ := tag
  cases ht with
  | @named _ ps ss name a hname =>
    have hnil : name = [] := by simpa using h
    exact absurd hnil hname.ne_nil
  | fragment => rfl

theorem place_usageCodes {u : Usage} : ∀ f ∈ usageCodes u, f.place ≠ .copied ∧ f.loops = [] := by
  intro f hf
  rcases List.mem_append.1 hf with hf | hf
  · obtain ⟨p, -, hp⟩ := List.mem_filterMap.1 hf
    split at hp
    · cases hp
      exact ⟨by simp, rfl⟩
    · cases hp
  · obtain ⟨s, -, rfl⟩ := List.mem_map.1 hf
    exact ⟨by simp, rfl⟩

theorem foundAll_tagged {closed : Bool} (tag : Tag closed) (cs : List Content) :
    foundAll (tagged tag.opening cs) =
      usageCodes ⟨tag.opening.name, tag.opening.props, tag.opening.spreads⟩ ++ foundAll cs := by
  rw [tagged]
  split
  · rename_i h
    rw [usageCodes_of_fragment tag h, List.nil_append]
  · split <;> simp [foundAll, found]

theorem foundAll_ofText (t : List Char) : foundAll (ofText t) = [] := by
  rw [ofText]
  split <;> rfl

/-- An iteration puts its array in front of what is copied from the tag, and of the code of the body, all
of it rewritten. -/
theorem foundAll_overItems {p : Parameters} {l : Loop} (hvars : l.vars = p.vars)
    (hkeys : l.destructured = p.keys) (cs : List Content) :
    foundAll [overItems l cs] = ⟨[], .direct, l.array⟩ ::
      (l.props.map (fun q => ⟨[p.vars], .copied, p.rewrite q.2⟩) ++
        (foundAll cs).map fun f => (f.rewritten p.rewrite).under p.vars) := by
  have hloop (l : Loop) (cs : List Content) : foundAll [.arrayMap l cs] = ⟨[], .direct, l.array⟩ ::
      (l.props.map (fun q => ⟨[l.vars], .copied, q.2⟩) ++ (foundAll cs).map (Found.under l.vars)) := by
    simp [foundAll, found]
  have hvar : l.itemVar = p.itemVar := congrArg LoopVars.item hvars
  rw [overItems]
  split
  · rename_i hnone
    have hsame : p.rewrite = id := by
      funext code
      rw [Parameters.rewrite, if_pos (hkeys ▸ hnone), id]
    have hall (f : Found) : f.rewritten id = f := by
      rw [Found.rewritten]
      split <;> rfl
    simp only [hloop, hsame, hvars, hall, id]
  · rename_i hnone
    have hfield : qualify l.destructured l.itemVar = p.rewrite := by
      funext code
      rw [Parameters.rewrite, if_neg (hkeys ▸ hnone), hkeys, hvar]
    rw [hloop, hfield, foundAll_mapCodeAll, List.map_map, List.map_map, ← hvars]
    rfl

theorem foundAll_iteration {l : LoopText} {p : Parameters} (hp : p.Fits) (hl : l.params = p.text)
    (tag : OpeningTag) (cs : List Content) :
    foundAll [iteration l (some tag) cs] = ⟨[], .direct, code l.array⟩ ::
      ((Nest.copies p tag).map Use.found ++
        (foundAll cs).map fun f => (f.rewritten p.rewrite).under p.vars) := by
  rw [iteration, hl, hp.binders?]
  simp only [Option.map_some, Option.getD_some]
  rw [foundAll_overItems (p := p) rfl rfl]
  simp [withTag, Nest.copies, Use.found, Use.within, Function.comp_def]

/-- One more callback around code rewrites it and puts one more loop around it. -/
theorem Use.found_under {u : Use} (hu : u.place = .copied → u.callbacks ≠ []) (p : Parameters) :
    Use.found { u with callbacks := u.callbacks ++ [p] } =
      (u.found.rewritten p.rewrite).under p.vars := by
  obtain ⟨callbacks, place, code, read⟩ := u
  cases place with
  | direct => simp [Use.found, Use.within, Found.rewritten, Found.under]
  | copied =>
    obtain ⟨q, qs, rfl⟩ := List.exists_cons_of_ne_nil (hu rfl)
    simp [Use.found, Use.within, Found.rewritten, Found.under]
  | spread => simp [Use.found, Use.within, Found.rewritten, Found.under]

namespace Nest

theorem opening_frame (n : Nest .element) : n.written.frame.opening = n.opening := by
  cases n <;> rfl

variable {part : Part} {n : Nest part} {inside : Bool}

/-- A nest of loops fits as the text that is written for it. -/
theorem Fits.written {n : Nest part} (h : n.Fits inside) : n.written.Fits inside := by
  induction n generalizing inside with
  | closed tag => trivial
  | paired tag inner ih => exact ih h.2
  | nested e ih => exact ih h
  | path around t => exact h
  | loop around array sign params gap parens body ih =>
    obtain ⟨harray, hsign, hparams, hbody⟩ := h
    exact ⟨harray, hsign, hparams.sealed, (fits_wrapped parens body.written).2 (ih hbody)⟩
  | last t => exact h
  | next t child rest ihc ihr => exact ⟨h.1, ihc h.2.1, ihr h.2.2⟩

/-- Copied code stands in the callback of its loop. -/
theorem callbacks_of_copied (n : Nest part) : ∀ u ∈ n.uses, u.place = .copied → u.callbacks ≠ [] := by
  have htag (tag : OpeningTag) : ∀ u ∈ tagUses tag, u.place = .copied → u.callbacks ≠ [] := by
    intro u hu hplace
    obtain ⟨f, hf, rfl⟩ := List.mem_map.1 hu
    exact absurd hplace (place_usageCodes f hf).1
  induction n with
  | closed tag => exact htag tag.opening
  | paired tag inner ih => exact List.forall_mem_append.2 ⟨htag tag.opening, ih⟩
  | nested e ih => exact ih
  | path around t => simp [uses]
  | loop around array sign params gap parens body ih => 
    refine List.forall_mem_cons.2 ⟨by simp, List.forall_mem_append.2 ⟨?_, ?_⟩⟩
    · intro u hu _
      obtain ⟨q, -, rfl⟩ := List.mem_map.1 hu
      simp
    · intro u hu _
      obtain ⟨v, -, rfl⟩ := List.mem_map.1 hu
      simp
  | last t => exact fun u hu => absurd hu List.not_mem_nil
  | next t child rest ihc ihr => exact List.forall_mem_append.2 ⟨ihc, ihr⟩

/-- The code of the content is what is written, in the same order. -/
theorem Fits.foundAll_content {n : Nest part} (h : n.Fits inside) :
    foundAll n.written.content = n.uses.map Use.found := by
  have htag {closed : Bool} (tag : Tag closed) :
      usageCodes ⟨tag.opening.name, tag.opening.props, tag.opening.spreads⟩ =
        (tagUses tag.opening).map Use.found := by
    rw [tagUses, List.map_map]
    refine (List.map_id _).symm.trans (List.map_congr_left fun f hf => ?_)
    obtain ⟨loops, place, code⟩ := f
    obtain ⟨-, rfl⟩ := place_usageCodes _ hf
    cases place <;> rfl
  induction n generalizing inside with
  | closed tag =>
    rw [uses, ← htag]
    exact (foundAll_tagged tag []).trans (List.append_nil _)
  | paired tag inner ih =>
    rw [uses, List.map_append, ← htag, ← ih h.2]
    exact foundAll_tagged tag inner.written.content
  | nested e ih => exact ih h
  | path around t => rfl
  | loop around array sign params gap parens body ih =>
    obtain ⟨-, -, hparams, hbody⟩ := h
    have hread : (loop around array sign params gap parens body).written.content =
        [iteration ⟨array, sign, params.text, padded gap (wrapped parens body.written).text⟩
          (some body.opening) body.written.content] := by
      show [iteration _ ((wrapped parens body.written).element?.map (·.frame.opening))
        ((wrapped parens body.written).content (wrapped parens body.written).element?.isNone)] = _
      rw [element?_wrapped, Option.isNone_some, content_wrapped, Option.map_some, opening_frame]
    have hwithin : (body.uses.map fun u => { u with callbacks := u.callbacks ++ [params] }).map
        Use.found = (body.uses.map Use.found).map fun f =>
          (f.rewritten params.rewrite).under params.vars := by
      rw [List.map_map, List.map_map]
      exact List.map_congr_left fun u hu => Use.found_under (body.callbacks_of_copied u hu) params
    rw [hread, foundAll_iteration hparams rfl, ih hbody, uses, List.map_cons,
      List.map_append, hwithin]
    rfl
  | last t => exact foundAll_ofText t
  | next t child rest ihc ihr =>
    rw [uses, List.map_append, ← ihc h.2.1, ← ihr h.2.2, ← foundAll_append]
    show foundAll (ofText t ++ (child.written.content ++ rest.written.content)) = _
    rw [foundAll_append, foundAll_ofText, List.nil_append]

/-- Code that fits is a path, but for texts among the properties, which start with no name. -/
theorem Fits.path_of_mem_uses {n : Nest part} (h : n.Fits inside) :
    ∀ u ∈ n.uses, headName u.code = [] ∨ ∃ m : MemberPath, u.code = String.ofList m.text := by
  have hpath {u : Use} (hu : IsPath u.code.toList) :
      headName u.code = [] ∨ ∃ m : MemberPath, u.code = String.ofList m.text := by
    obtain ⟨m, hm⟩ := MemberPath.exists_of_isPath hu
    exact .inr ⟨m, by rw [hm, String.ofList_toList]⟩
  have hcopies {params : Parameters} {tag : OpeningTag} (ht : ∀ u ∈ tagUses tag, IsPath u.code.toList) :
      ∀ u ∈ copies params tag,
        headName u.code = [] ∨ ∃ m : MemberPath, u.code = String.ofList m.text := by
    intro u hu
    obtain ⟨⟨name, value⟩, hq, rfl⟩ := List.mem_map.1 hu
    cases value with
    | literal t =>
      have hquote : isIdentifierChar '\'' = false := by decide
      exact .inl (by simp [headName, valueCode, hquote])
    | expression c =>
      refine hpath (ht ⟨[], .direct, c, c⟩ (List.mem_map.2 ⟨⟨[], .direct, c⟩, ?_, rfl⟩))
      exact List.mem_append_left _ (List.mem_filterMap.2 ⟨_, List.mem_of_mem_filter hq, rfl⟩)
    | flag =>
      have htrue : IsPath "true".toList := .name (by decide)
      exact hpath htrue
  induction n generalizing inside with
  | closed tag => exact fun u hu => hpath (h u hu)
  | paired tag inner ih => exact List.forall_mem_append.2 ⟨fun u hu => hpath (h.1 u hu), ih h.2⟩
  | nested e ih => exact ih h
  | path around t =>
    refine List.forall_mem_singleton.2 (hpath ?_)
    rw [String.toList_ofList]
    exact h
  | loop around array sign params gap parens body ih =>
    obtain ⟨harray, -, -, hbody⟩ := h
    have htag : ∀ u ∈ tagUses body.opening, IsPath u.code.toList := by
      cases body with
      | closed tag => exact hbody
      | paired tag inner => exact hbody.1
    refine List.forall_mem_cons.2 ⟨hpath ?_, List.forall_mem_append.2 ⟨hcopies htag, ?_⟩⟩
    · rw [String.toList_ofList]
      exact harray
    · intro u hu
      obtain ⟨v, hv, rfl⟩ := List.mem_map.1 hu
      exact ih hbody v hv
  | last t => exact fun u hu => absurd hu List.not_mem_nil
  | next t child rest ihc ihr => exact List.forall_mem_append.2 ⟨ihc h.2.1, ihr h.2.2⟩

def innerUses : Nest .element → List Use
  | closed _ => []
  | paired _ inner => inner.uses

/-- Code that is read as it is written, and that starts with a name from a callback, is found as what it
stands for just where the scopes around it are safe. -/
theorem nested_scopes_kept_iff_safe (root : Nest .element) (h : root.Fits false) :
    ∃ e, firstElement? root.text = some e ∧
      List.Forall₂ (fun u f => f.place = u.place ∧ f.loops = u.callbacks.map (·.vars) ∧
          ∀ i p, u.BoundAt i p → u.read = u.code → (Use.Keeps i p u.code f ↔ u.Safe i p))
        root.innerUses (foundAll (ofRoot e []).value) := by
  obtain ⟨e, hparse, hvalue⟩ := h.written.frame.ofRoot
  rw [Written.print_frame] at hparse
  refine ⟨e, hparse, ?_⟩
  have hcodes : foundAll (ofRoot e []).value = root.innerUses.map Use.found := by
    rw [hvalue]
    cases root with
    | closed tag => rfl
    | paired tag inner =>
      have hread := h.2.written.value_frame fun e he _ => he.value_ofExpression
      exact (congrArg foundAll hread).trans h.2.foundAll_content
  have hpaths : ∀ u ∈ root.innerUses,
      headName u.code = [] ∨ ∃ m : MemberPath, u.code = String.ofList m.text := by
    cases root with
    | closed tag => exact fun u hu => absurd hu List.not_mem_nil
    | paired tag inner => exact h.2.path_of_mem_uses
  rw [hcodes, List.forall₂_map_right_iff, List.forall₂_same]
  intro u hu
  refine ⟨rfl, rfl, fun i p hb hr => ?_⟩
  rcases hpaths u hu with hnone | ⟨m, hm⟩
  · exact absurd hnone hb.headName_ne_nil
  · exact hb.keeps_iff hr hm

def alone (pattern : Pattern) : Parameters := .listed ⟨.none, .space⟩ ⟨.none, .none⟩ { pattern }

theorem alone_fits {pattern : Pattern} (h : pattern.Fits) : (alone pattern).Fits :=
  ⟨h, fun _ ht => (nomatch ht), fun _ hi => (nomatch hi)⟩

def eachOf (array : List Char) (params : Parameters) (body : Nest .element) : Nest .inside :=
  next [] (loop ⟨.none, .none⟩ array [] params ⟨.space, .none⟩ [] body) (last [])

theorem fits_nil (inside : Bool) : (last []).Fits inside := ⟨by simp, fun _ => .nil⟩

theorem eachOf_fits {array : List Char} (harray : IsPath array) {params : Parameters} (hp : params.Fits)
    {body : Nest .element} (hb : body.Fits true) : (eachOf array params body).Fits inside :=
  ⟨fits_nil inside, ⟨harray, .inl blank_nil, hp, hb⟩, fits_nil inside⟩

theorem plainTag_fits {name : List Char} {hn : IsName name} {ha : ∀ c ∈ name.head?, c.isAlpha = true}
    {inner : Nest .inside} (h : inner.Fits inside) :
    (paired (Tree.plainTag name hn ha) inner).Fits inside :=
  ⟨fun _ hu => absurd hu List.not_mem_nil, h⟩

def groupParams : Parameters := alone (.named ⟨"group".toList, by decide⟩)

theorem isIdentifier_label : isIdentifier "label".toList = true := by decide

def labelParams : Parameters :=
  alone (.fields [(⟨.space, .space⟩, { key := ⟨"label".toList, isIdentifier_label⟩ })])

/-- `<ul>{groups.map((group) =>
<li>{group.items.map(({ label }) => <b>{group.name}{label}</b>)}</li>)}</ul>`. -/
def groupLabels : Nest .element :=
  paired Tree.ulTag
    (eachOf "groups".toList groupParams
      (paired Tree.liTag
        (eachOf "group.items".toList labelParams
          (paired (Tree.plainTag "b".toList ⟨by decide, by decide⟩ (by decide))
            (next [] (path ⟨.none, .none⟩ "group.name".toList)
              (next [] (path ⟨.none, .none⟩ "label".toList) (last [])))))))

theorem groupLabels_fits : groupLabels.Fits false := by
  have hgroups : IsPath "groups".toList := .name (by decide)
  have hitems : IsPath ("group".toList ++ '.' :: "items".toList) := .dot (by decide) (.name (by decide))
  have hname : IsPath ("group".toList ++ '.' :: "name".toList) := .dot (by decide) (.name (by decide))
  have hlabel : IsPath "label".toList := .name (by decide)
  have hgroup : groupParams.Fits := alone_fits trivial
  have hfields : labelParams.Fits := alone_fits (List.forall_mem_singleton.2 (by rintro _ ⟨⟩))
  exact plainTag_fits (eachOf_fits hgroups hgroup (plainTag_fits (eachOf_fits hitems hfields
    (plainTag_fits ⟨fits_nil true, hname, fits_nil true, hlabel, fits_nil true⟩))))

/-- Both loops are seen from the innermost element. -/
theorem group_and_label_keep_scopes :
    let render := "<ul>\x7bgroups.map((group) => <li>\x7bgroup.items.map((\x7b label \x7d) => " ++
      "<b>\x7bgroup.name\x7d\x7blabel\x7d</b>)\x7d</li>)\x7d</ul>"
    groupLabels.text = render.toList ∧ ∃ e, firstElement? render.toList = some e ∧
      ∃ array, foundAll (ofRoot e []).value = [array, ⟨[⟨"group", none⟩], .direct, "group.items"⟩,
        ⟨[⟨"item", none⟩, ⟨"group", none⟩], .direct, "group.name"⟩,
        ⟨[⟨"item", none⟩, ⟨"group", none⟩], .direct, "item.label"⟩] := by
  intro render
  have htext : groupLabels.text = render.toList := by decide
  obtain ⟨e, he, hcodes⟩ := nested_scopes_kept_iff_safe groupLabels groupLabels_fits
  refine ⟨htext, e, htext ▸ he, ?_⟩
  have huses : groupLabels.innerUses = [⟨[], .direct, "groups", "groups"⟩,
      ⟨[groupParams], .direct, "group.items", "group.items"⟩,
      ⟨[labelParams, groupParams], .direct, "group.name", "group.name"⟩,
      ⟨[labelParams, groupParams], .direct, "label", "label"⟩] := by rfl
  rw [huses] at hcodes
  simp only [List.forall₂_cons_left_iff, List.forall₂_nil_left_iff] at hcodes
  obtain ⟨array, _, -, ⟨⟨_, _, items⟩, _, ⟨rfl, rfl, hitems⟩, ⟨⟨_, _, name⟩, _, ⟨rfl, rfl, hname⟩,
    ⟨⟨_, _, label⟩, _, ⟨rfl, rfl, hlabel⟩, rfl, rfl⟩, rfl⟩, rfl⟩, hcodes⟩ := hcodes
  have hitems := (hitems 0 groupParams ⟨rfl, by decide, by decide⟩ trivial).2 (by decide)
  have hname := (hname 1 groupParams ⟨rfl, by decide, by decide⟩ trivial).2 (by decide)
  have hlabel := (hlabel 0 labelParams ⟨rfl, by decide, by decide⟩ trivial).2 (by decide)
  refine ⟨array, ?_⟩
  obtain rfl : "group.items" = items := Option.some.inj hitems.1
  obtain rfl : "group.name" = name := Option.some.inj hname.1
  obtain rfl : "item.label" = label := Option.some.inj hlabel.1
  exact hcodes

def cellFields : Parameters :=
  alone (.fields [(⟨.space, .space⟩, { key := ⟨"cell".toList, by decide⟩ })])

def cellParams : Parameters := alone (.named ⟨"cell".toList, by decide⟩)

/-- `<table>{rows.map(({ cell }) => <tr>{cells.map((cell) => <td>{cell}</td>)}</tr>)}</table>`. -/
def rowCells : Nest .element :=
  let tag (name : List Char) (hn : IsName name) (ha : ∀ c ∈ name.head?, c.isAlpha = true) :=
    Tree.plainTag name hn ha
  paired (tag "table".toList ⟨by decide, by decide⟩ (by decide))
    (eachOf "rows".toList cellFields
      (paired (tag "tr".toList ⟨by decide, by decide⟩ (by decide))
        (eachOf "cells".toList cellParams
          (paired (tag "td".toList ⟨by decide, by decide⟩ (by decide))
            (next [] (path ⟨.none, .none⟩ "cell".toList) (last []))))))

/-- The outer callback rewrites a name that the inner one has bound anew. -/
theorem inner_cell_becomes_outer_field :
    let render := "<table>\x7brows.map((\x7b cell \x7d) => <tr>\x7bcells.map((cell) => " ++
      "<td>\x7bcell\x7d</td>)\x7d</tr>)\x7d</table>"
    let cell : Use := ⟨[cellParams, cellFields], .direct, "cell", "cell"⟩
    let found : Found := ⟨[⟨"cell", none⟩, ⟨"item", none⟩], .direct, "item.cell"⟩
    rowCells.text = render.toList ∧ rowCells.Fits false ∧ rowCells.innerUses[2]? = some cell ∧
      (∃ e, firstElement? render.toList = some e ∧ (foundAll (ofRoot e []).value)[2]? = some found) ∧
      cell.BoundAt 0 cellParams ∧ cellParams.meaning? "cell" = some "cell" ∧
      ¬ Use.Keeps 0 cellParams "cell" found := by
  intro render cell found
  have hrows : IsPath "rows".toList := .name (by decide)
  have hcells : IsPath "cells".toList := .name (by decide)
  have hcell : IsPath "cell".toList := .name (by decide)
  have hfields : cellFields.Fits := alone_fits (List.forall_mem_singleton.2 (by rintro _ ⟨⟩))
  have hparams : cellParams.Fits := alone_fits trivial
  have hread : (firstElement? render.toList).bind (fun e => (foundAll (ofRoot e []).value)[2]?) =
      some found := by decide +kernel
  refine ⟨by decide, ?_, rfl, Option.bind_eq_some_iff.1 hread, ⟨rfl, by decide, by decide⟩,
    by decide, ?_⟩
  · exact plainTag_fits (eachOf_fits hrows hfields (plainTag_fits (eachOf_fits hcells hparams
      (plainTag_fits ⟨fits_nil true, hcell, fits_nil true⟩))))
  · intro hkeeps
    exact absurd hkeeps.1 (by decide)

end Nest

end Content
end JsxToJinja
