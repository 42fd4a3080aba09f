import JsxToJinja.Proofs.Code.Names
import JsxToJinja.Proofs.Project.BareComponents
import JsxToJinja.Proofs.Project.InlineBases
import JsxToJinja.Proofs.Project.KeptFiles

/-! The tag under which a template uses another component of the project, against the name under which
that component is made. -/
namespace JsxToJinja

namespace Text
open JsxToJinja.Code

variable {P : Char → Prop} {t : List Char}

private theorem forall_kebabFrom (hdash : P '-') (ht : ∀ c ∈ t, P c ∧ ∀ d ∈ lowercase c, P d)
    {before : Option Char} {written : List Char} (hw : ∀ c ∈ written, P c) :
    ∀ c ∈ kebabFrom before written t, P c := by
  induction t generalizing before written with
  | nil => exact hw
  | cons c t ih =>
    obtain ⟨⟨hc, hlower⟩, ht⟩ := List.forall_mem_cons.1 ht
    have hhyphen : ∀ d ∈ '-' :: written, P d := List.forall_mem_cons.2 ⟨hdash, hw⟩
    have hcapital {w : List Char} (h : ∀ d ∈ w, P d) : ∀ d ∈ (lowercase c).reverse ++ w, P d := by
      intro d hd
      rcases List.mem_append.1 hd with hd | hd
      · exact hlower d (List.mem_reverse.1 hd)
      · exact h d hd
    rw [kebabFrom]
    dsimp only
    split
    · split
      · exact ih ht hhyphen
      · exact ih ht hw
    · split
      · split
        · exact ih ht (hcapital hhyphen)
        · exact ih ht (hcapital hw)
      · exact ih ht (List.forall_mem_cons.2 ⟨hc, hw⟩)

/-- What holds of the characters of a name and of their lower case, and of the hyphen, holds of the
kebab case of the name. -/
theorem forall_kebab (hdash : P '-') (ht : ∀ c ∈ t, P c ∧ ∀ d ∈ lowercase c, P d) :
    ∀ c ∈ kebab t, P c := by
  intro c hc
  have hwritten := (List.dropWhile_suffix _).subset hc
  rw [List.mem_reverse] at hwritten
  exact forall_kebabFrom hdash ht (by simp) c ((List.dropWhile_suffix _).subset hwritten)

def endsTag (c : Char) : Bool := c == ' ' || c == '>'

private theorem endsTag_of_isIdentifierChar {c : Char} (h : isIdentifierChar c = true) :
    endsTag c = false ∧ ∀ d ∈ lowercase c, endsTag d = false := by
  have htable : ∀ n < 128, isIdentifierChar (Char.ofNat n) →
      endsTag (Char.ofNat n) = false ∧ endsTag (Char.ofNat n).toLower = false := by decide
  have hascii : c.toNat < 128 := by
    have hrange := toNat_of_isIdentifierChar h
    omega
  have hc := htable c.toNat hascii
  rw [Char.ofNat_toNat] at hc
  rw [lowercase, if_pos hascii]
  simpa using hc h

theorem isIdentifierChar_of_isPascalCase {name : String} (h : isPascalCase name = true) {c : Char}
    (hc : c ∈ name.toList) : isIdentifierChar c = true := by
  rw [isPascalCase] at h
  cases hname : name.toList with
  | nil =>
    rw [hname] at hc
    cases hc
  | cons first rest =>
    rw [hname] at h hc
    simp only [Bool.and_eq_true, List.all_eq_true] at h
    rcases List.mem_cons.1 hc with rfl | hc
    · have halpha : c.isAlpha = true := Bool.or_eq_true_iff.2 (.inl h.1)
      simp [isIdentifierChar, Char.isAlphanum, halpha]
    · have hrest := h.2 c hc
      rw [Bool.or_eq_true] at hrest
      rcases hrest with hrest | hrest <;> simp [isIdentifierChar, hrest]

/-- The tag of a component in Pascal case goes on to the end of its name. -/
theorem endsTag_componentTag {name : String} (h : isPascalCase name = true) :
    ∀ c ∈ (componentTag name).toList, endsTag c = false := by
  have hkebab : ∀ c ∈ kebab name.toList, endsTag c = false :=
    forall_kebab (by decide) fun c hc =>
      endsTag_of_isIdentifierChar (isIdentifierChar_of_isPascalCase h hc)
  intro c hc
  rw [componentTag, String.toList_append, List.mem_append] at hc
  rcases hc with hc | hc
  · revert c
    decide
  · rw [kebabCase, String.toList_ofList] at hc
    exact hkebab c hc

end Text

namespace Jinja.TemplateInput
open JsxToJinja.Text

def tagName? (block : List Line) : Option String :=
  match block with
  | [] => none
  | l :: _ =>
    match l.text.toList with
    | '<' :: t => some (String.ofList (t.takeWhile (!endsTag ·)))
    | _ => none

/-- What may follow the name of a tag. -/
def FollowsTag (t : List Char) : Prop := ∀ c ∈ t.head?, endsTag c = true

theorem followsTag_nil : FollowsTag [] := by simp [FollowsTag]

theorem followsTag_cons {c : Char} (h : endsTag c = true) (t : List Char) : FollowsTag (c :: t) := by
  simpa [FollowsTag] using h

theorem FollowsTag.append {a b : List Char} (ha : FollowsTag a) (hb : FollowsTag b) :
    FollowsTag (a ++ b) := by
  cases a with
  | nil => exact hb
  | cons c a => exact ha

theorem FollowsTag.join {texts : List String} (h : ∀ t ∈ texts, FollowsTag t.toList) :
    FollowsTag (String.join texts).toList := by
  induction texts with
  | nil => simp [FollowsTag]
  | cons t texts ih =>
    rw [String.join_cons, String.toList_append]
    exact (h t (by simp)).append (ih fun u hu => h u (by simp [hu]))

variable {input : TemplateInput} {loops : List OpenLoop} {u : Usage}

private theorem followsTag_blank (text : String) : FollowsTag (" " ++ text).toList := by
  rw [String.toList_append]
  exact followsTag_cons rfl _

theorem followsTag_boundText (p : Markup.Property) : FollowsTag (input.boundText p).toList := by
  have hcolon (name value : String) : FollowsTag (" :" ++ attributeText name value).toList := by
    rw [String.toList_append]
    exact followsTag_cons rfl _
  rw [boundText]
  split
  · exact followsTag_blank _
  · exact hcolon _ _
  · exact hcolon _ _

theorem followsTag_spreadText (loop : OpenLoop) :
    FollowsTag (input.spreadText loop u).value.toList := by
  rw [spreadText]
  dsimp only
  split
  · exact followsTag_nil
  · refine FollowsTag.join (List.forall_mem_map.2 fun p _ => ?_)
    rw [String.toList_append]
    exact followsTag_cons rfl _

theorem followsTag_spreadTexts (names : List String) :
    FollowsTag (input.spreadTexts loops u names).value.toList := by
  induction names with
  | nil => exact followsTag_nil
  | cons s rest ih =>
    rw [spreadTexts]
    split <;> simp only [Reviewed.value_bind, Reviewed.value_pure, String.toList_append]
    · exact (followsTag_spreadText _).append ih
    · exact followsTag_nil.append ih

/-- The name of a tag ends where something follows it. -/
theorem tagName?_top {text tag : String} {after : List Char} {ls : List Line}
    (htext : text.toList = '<' :: (tag.toList ++ after))
    (htag : ∀ c ∈ tag.toList, endsTag c = false) (hafter : FollowsTag after) :
    tagName? (.top text :: ls) = some tag := by
  have hstop : after.takeWhile (!endsTag ·) = [] := by
    cases after with
    | nil => rfl
    | cons c _ => simp [hafter c rfl]
  simp only [tagName?, Line.top, htext]
  rw [List.takeWhile_append_of_pos (by simpa using htag), hstop, List.append_nil,
    String.ofList_toList]

/-- A component that is no base component is written under the tag of the name that the markup uses.
-/
theorem tagName?_componentLines (hplain : Dict.get? input.inlineComponents u.name = none)
    (hname : isPascalCase u.name = true) (loops : List OpenLoop) (inline : Option String)
    (noChildren : Bool) (body : Reviewed (List Line)) :
    tagName? (input.componentLines loops u inline noChildren body).value =
      some (componentTag u.name) := by
  have htag := endsTag_componentTag hname
  have hprops : FollowsTag
      (String.join ((u.props.filter isRendered).map input.boundText)).toList :=
    .join (List.forall_mem_map.2 fun p _ => followsTag_boundText p)
  have hspreads : FollowsTag (input.spreadTexts loops u u.spreads).value.toList :=
    followsTag_spreadTexts _
  let head := "<" ++ componentTag u.name ++
    String.join ((u.props.filter isRendered).map input.boundText) ++
    (input.spreadTexts loops u u.spreads).value
  have hopens {text : String} {tail : List Char} (htail : FollowsTag tail)
      (htext : text.toList = head.toList ++ tail) (ls : List Line) :
      tagName? (.top text :: ls) = some (componentTag u.name) :=
    tagName?_top (by simp [htext, head]) htag (hprops.append (hspreads.append htail))
  rw [componentLines, hplain]
  simp only [Reviewed.value_bind]
  split
  · exact hopens (followsTag_cons (c := ' ') rfl ['/', '>']) (by simp [head]) _
  · split
    · obtain ⟨text, rfl⟩ := Option.isSome_iff_exists.1 ‹_›
      exact hopens (followsTag_cons (c := '>') rfl (text ++ "</" ++ componentTag u.name ++ ">").toList)
        (by simp [head]) _
    · exact hopens (followsTag_cons (c := '>') rfl []) (by simp [head]) _

def IsUse (input : TemplateInput) (u : Usage) (tag : String) (block : List Line) : Prop :=
  (∃ loops inline noChildren body,
    block = (input.componentLines loops u inline noChildren body).value) ∧ tagName? block = some tag

end Jinja.TemplateInput

namespace NestedComponent
open JsxToJinja.Text

/-- The component is what a name of an import stands for. -/
structure IsImported (tree : FileTree) (imports : List Import) (sourceFile : String)
    (n : NestedComponent) : Prop where
  described : ∃ i ∈ imports, n.localName ∈ i.localNames ∧
    n.className = (i.importedName? n.localName).getD n.localName ∧
    n = describe tree i n.localName n.className sourceFile
  pascal : isPascalCase n.localName = true

theorem IsImported.tagName_eq {tree : FileTree} {imports : List Import} {sourceFile : String}
    {n : NestedComponent} (h : n.IsImported tree imports sourceFile) :
    n.tagName = componentTag n.className ∧ n.name = kebabCase n.className := by
  obtain ⟨_, _, _, _, hn⟩ := h.described
  exact ⟨congrArg tagName hn, congrArg name hn⟩

variable {tree : FileTree} {markup : List Char} {sourceFile : String} {imports : List Import}

/-- A component listed for a local name is one that an import of the file leads to. -/
theorem isImported_of_mem_addLocal {i : Import} (hi : i ∈ imports) {found : List NestedComponent}
    (hfound : ∀ n ∈ found, n.IsImported tree imports sourceFile) {localName : String}
    (hlocal : localName ∈ i.localNames) :
    ∀ n ∈ addLocal tree markup sourceFile i found localName,
      n.IsImported tree imports sourceFile := by
  intro n hn
  rw [addLocal] at hn
  split at hn
  · exact hfound n hn
  · rename_i hkept
    rcases List.mem_append.1 hn with hn | hn
    · exact hfound n hn
    · have hpascal : isPascalCase localName = true := by
        simp only [Bool.or_eq_true, not_or] at hkept
        simpa using hkept.1.1.1
      rw [List.mem_singleton.1 hn]
      exact ⟨⟨i, hi, hlocal, rfl, rfl⟩, hpascal⟩

/-- Everything that is detected comes from an import. -/
theorem isImported_of_mem_detect :
    ∀ n ∈ detect tree imports markup sourceFile, n.IsImported tree imports sourceFile := by
  have hnames (i : Import) (hi : i ∈ imports) (names : List String) (hsub : names ⊆ i.localNames)
      (found : List NestedComponent) (hfound : ∀ n ∈ found, n.IsImported tree imports sourceFile) :
      ∀ n ∈ names.foldl (addLocal tree markup sourceFile i) found,
        n.IsImported tree imports sourceFile := by
    induction names generalizing found with
    | nil => exact hfound
    | cons localName names ih =>
      obtain ⟨hlocal, hsub⟩ := List.cons_subset.1 hsub
      exact ih hsub _ (isImported_of_mem_addLocal hi hfound hlocal)
  have himports (list : List Import) (hsub : list ⊆ imports) (found : List NestedComponent)
      (hfound : ∀ n ∈ found, n.IsImported tree imports sourceFile) :
      ∀ n ∈ list.foldl (fun found i => i.localNames.foldl (addLocal tree markup sourceFile i) found)
        found, n.IsImported tree imports sourceFile := by
    induction list generalizing found with
    | nil => exact hfound
    | cons i list ih =>
      obtain ⟨hi, hsub⟩ := List.cons_subset.1 hsub
      exact ih hsub _ (hnames i hi _ (List.Subset.refl _) found hfound)
  exact himports _ (List.filter_sublist.subset) [] (by simp)

end NestedComponent

namespace Project
open Jinja Jinja.TemplateInput JsxToJinja.Text

/-- A template uses a component under a tag: in the lines made for the use, and in the root where it
shows the use. -/
structure UsesTag (input : Jinja.TemplateInput) (c : Content) (u : Usage) (tag : String) : Prop where
  own (loops : List OpenLoop) : Line.Hold (input.IsUse u tag) (input.lines loops c).value
  inRoot (options : Jinja.Options) (h : c ∈ input.shownInRoot) :
    Line.Hold (input.IsUse u tag) (input.rootLines options).value

/-- A component that no base stands for is used under the tag of its name. -/
theorem usesTag_iff {input : Jinja.TemplateInput} {c : Content} {u : Usage} {tag : String}
    (hu : usage? c = some u) (hplain : Dict.get? input.inlineComponents u.name = none)
    (hname : isPascalCase u.name = true) : UsesTag input c u tag ↔ tag = componentTag u.name := by
  have huse := usage?_eq_some.1 hu
  constructor
  · intro h
    obtain ⟨_, _, block, _, ⟨⟨loops, inline, noChildren, body, rfl⟩, htag⟩, -⟩ := h.own []
    rw [tagName?_componentLines hplain hname] at htag
    exact (Option.some.inj htag).symm
  · rintro rfl
    have hwrites : input.Writes (input.IsUse u (componentTag u.name)) u :=
      fun loops inline noChildren body => .of_kind
        ⟨⟨loops, inline, noChildren, body, rfl⟩, tagName?_componentLines hplain hname _ _ _ _⟩
    have hself : c ∈ input.shown c := by
      cases huse <;> exact List.mem_cons_self
    exact ⟨fun loops => hold_lines huse hwrites c loops hself,
      fun options hc => hold_rootLines huse hwrites hc options⟩

section

variable {p : Project} {time : String} {depth : Nat} {chain : List String} {name : String}
  {f : SourceFiles} {options : ConvertOptions} {w w' : Workspace} {x : Parts}
  {outcomes : List NestedOutcome}

theorem isImported_of_gather
    (h : (p.gather (p.convertWithin time depth) chain name f options).run.run w =
      (.ok (x, outcomes), w')) {n : NestedComponent} (hn : n ∈ x.nested) :
    ∃ tree, n.IsImported tree x.source.imports f.template := by
  obtain ⟨⟨tree, hdetect⟩, -⟩ := nested_of_gather h
  exact ⟨tree, NestedComponent.isImported_of_mem_detect n (hdetect ▸ hn)⟩

/-- The tag of a nested component comes from the name that the markup uses. -/
theorem usesTag_nested_iff
    (h : (p.gather (p.convertWithin time depth) chain name f options).run.run w =
      (.ok (x, outcomes), w')) {n : NestedComponent} (hn : n ∈ x.nested) {c : Content} {u : Usage}
    (hu : usage? c = some u) (hlocal : u.name = n.localName)
    (hbase : RootPlan.baseOf? p.library x.source.imports u.name = none) {tag : String} :
    UsesTag (x.input p.library name (p.layout.relative f.template)) c u tag ↔
      tag = componentTag n.localName := by
  obtain ⟨_, himported⟩ := isImported_of_gather h hn
  have hplain : Dict.get? (x.input p.library name (p.layout.relative f.template)).inlineComponents
      u.name = none := by
    refine (get?_inlineComponents p.library x.source x.root.value x.content.value u.name).trans ?_
    rw [firstUse?, bind_baseOfUse?_find?_of_none hbase, ite_self]
  rw [usesTag_iff hu hplain (hlocal ▸ himported.pascal), hlocal]

end

/-- Where the parts of a component are known, at whatever depth it is converted: the tag of a nested
component is made from the name of its template, which is there unless its conversion failed; and a
use that is no base component gets this tag exactly if the name that the markup uses and the one that
the other file exports are the same in kebab case. -/
theorem nested_tag_iff (p : Project) (time : String) (depth : Nat) (chain : List String)
    (name : String) (f : SourceFiles) (options : ConvertOptions) (w w' : Workspace) (x : Parts)
    (outcomes : List NestedOutcome)
    (h : (p.gather (p.convertWithin time depth) chain name f options).run.run w =
      (.ok (x, outcomes), w')) (n : NestedComponent) (hn : n ∈ x.nested) :
    n.tagName = "c-" ++ n.name ∧
    (∀ outcome, (n, outcome) ∈ x.nested.zip outcomes → NestedOutcome.isThere outcome = true →
      w'.tree.has (p.layout.template n.name)) ∧
    ∀ c u, usage? c = some u → u.name = n.localName →
      RootPlan.baseOf? p.library x.source.imports u.name = none →
      (UsesTag (x.input p.library name (p.layout.relative f.template)) c u n.tagName ↔
        kebabCase n.localName = kebabCase n.className) := by
  obtain ⟨_, himported⟩ := isImported_of_gather h hn
  obtain ⟨htag, hname⟩ := himported.tagName_eq
  refine ⟨by rw [htag, hname, componentTag], (nested_of_gather h).2 n, fun c u hu hlocal hbase => ?_⟩
  rw [usesTag_nested_iff h hn hu hlocal hbase, htag, componentTag, componentTag,
    String.append_right_inj]
  exact eq_comm

/-! ### Notes with a card -/

/-- A note that shows a card under a name of its own or another one. The template of the card is
there. -/
def cardNote (specifier name : String) : Workspace :=
  { tree := { files := [("/p/rvo/components/note/src/card.tsx", "const Card = () => <p />;"),
      ("/p/rvo/components/note/src/template.tsx", "import \x7b " ++ specifier ++
        " \x7d from './card'; const Note = () => <div><" ++ name ++ " /></div>;"),
      ("/p/templates/components/card.html.j2", "<p></p>")] } }

def showsCard (localName : String) (x : Parts) : Bool :=
  (x.nested.any fun n => n.name == "card" && n.localName == localName && n.className == "Card") &&
    (x.content.value.any fun c => (usage? c).any (·.name == localName)) &&
    (RootPlan.baseOf? standardProject.library x.source.imports localName).isNone

def gatherNote (w : Workspace) : Except ConvertError (Parts × List NestedOutcome) × Workspace :=
  (standardProject.gather (standardProject.convertWithin "" 1) ["note"] "note" noteFiles {}).run.run w

/-- A note that nothing customizes has its code in place, and the template of the card is there. -/
def NoteInPlace (t : FileTree) (code : String) : Prop :=
  t.read? noteFiles.template = some code ∧
  (Customization.load standardProject.layout.customizations "note" t).toOption.any
    (Option.all Customization.isVoid) = true ∧
  t.has (standardProject.layout.template "card") = true

instance (t : FileTree) (code : String) : Decidable (NoteInPlace t code) :=
  inferInstanceAs (Decidable (_ ∧ _))

/-- A note that shows the card comes to what reading it gives: the card need not be made. -/
theorem gatherNote_of_bareParts? {w : Workspace} {code : String} {x : Parts}
    (hplace : NoteInPlace w.tree code)
    (hx : bareParts? w.tree "note" noteFiles code (Source.parse code none noteFiles.hint) = some x)
    (hcard : x.nested.map (fun n => (n.name, n.resolvedPath.isSome)) = [("card", true)]) :
    ∃ outcomes w', gatherNote w = (.ok (x, outcomes), w') := by
  obtain ⟨hread, hcustom, hthere⟩ := hplace
  obtain ⟨source, root, hbare, rfl⟩ :=
    isBare_of_bareParts? (p := standardProject) hread rfl hcustom hx
  obtain ⟨n, hn, hfields⟩ := List.map_eq_singleton_iff.1 hcard
  have hdetect : NestedComponent.detect w.tree source.imports source.renderBody noteFiles.template =
    [n] := hn
  obtain ⟨hname, hresolved⟩ := Prod.mk.inj hfields
  obtain ⟨path, hpath⟩ := Option.isSome_iff_exists.1 hresolved
  rw [← hname] at hthere
  obtain ⟨w', hgather, -, -⟩ := hbare.gather (standardProject.convertWithin "" 1) ["note"] {} hdetect
    fun w₁ => convertNested_singleton fun w₂ htree =>
      ⟨w₂, convertOne_of_there hpath (htree ▸ hthere), htree,
        (Conversion.Quiet.refl w₂).starts⟩
  rw [hdetect]
  exact ⟨_, w', hgather⟩

/-- The characters of the code are given apart. -/
theorem exists_parts_of_showsCard (specifier localName : String) {code : String} {cs : List Char}
    (hplace : NoteInPlace (cardNote specifier localName).tree code) (hcode : code.toList = cs)
    (h : ∀ text : String, text.toList = cs →
      (bareParts? (cardNote specifier localName).tree "note" noteFiles code
        (Source.parse text none noteFiles.hint)).any (fun x => showsCard localName x ∧
          x.nested.map (fun n => (n.name, n.resolvedPath.isSome)) = [("card", true)]) = true) :
    ∃ x outcomes w', gatherNote (cardNote specifier localName) = (.ok (x, outcomes), w') ∧
      ∃ n ∈ x.nested, n.name = "card" ∧ n.localName = localName ∧ n.className = "Card" ∧
      ∃ c ∈ x.content.value, ∃ u, usage? c = some u ∧ u.name = localName ∧
        RootPlan.baseOf? standardProject.library x.source.imports u.name = none := by
  obtain ⟨x, hx, hshows⟩ := (Option.any_eq_true _ _).1 (h code hcode)
  obtain ⟨hshows, hcard⟩ := of_decide_eq_true hshows
  obtain ⟨outcomes, w', hgather⟩ := gatherNote_of_bareParts? hplace hx hcard
  simp only [showsCard, Bool.and_eq_true, List.any_eq_true, beq_iff_eq, Option.any_eq_true,
    Option.isNone_iff_eq_none] at hshows
  obtain ⟨⟨⟨n, hn, ⟨hname, hlocal⟩, hclass⟩, c, hc, u, hu, huse⟩, hbase⟩ := hshows
  exact ⟨x, outcomes, w', hgather, n, hn, hname, hlocal, hclass, c, hc, u, hu, huse, huse ▸ hbase⟩

theorem card_used_under_its_tag :
    ∃ x outcomes w', gatherNote (cardNote "Card" "Card") = (.ok (x, outcomes), w') ∧
      ∃ n ∈ x.nested, n.tagName = "c-" ++ n.name ∧ n.name = "card" ∧
      ∃ c ∈ x.content.value, ∃ u, usage? c = some u ∧ u.name = n.localName ∧
        RootPlan.baseOf? standardProject.library x.source.imports u.name = none ∧
        UsesTag (x.input standardProject.library "note"
          (standardProject.layout.relative noteFiles.template)) c u n.tagName := by
  obtain ⟨x, outcomes, w', hgather, n, hn, hname, hlocal, hclass, c, hc, u, hu, huse, hbase⟩ :=
    exists_parts_of_showsCard "Card" "Card" (by decide +kernel :
        NoteInPlace _ "import \x7b Card \x7d from './card'; const Note = () => <div><Card /></div>;")
      String.toList_ofList fun text htext => by
        rw [Source.parse, htext]
        decide +kernel
  have huse : u.name = n.localName := huse.trans hlocal.symm
  obtain ⟨htag, -, hiff⟩ := nested_tag_iff standardProject "" 1 ["note"] "note" noteFiles {} _ _ _ _
    hgather n hn
  exact ⟨x, outcomes, w', hgather, n, hn, htag, hname, c, hc, u, hu, huse, hbase,
    (hiff c u hu huse hbase).2 (by rw [hlocal, hclass])⟩

/-- A card that is imported under another name is used under the tag of that name. -/
theorem renamed_card_not_under_its_tag :
    ∃ x outcomes w', gatherNote (cardNote "Card as Box" "Box") = (.ok (x, outcomes), w') ∧
      ∃ n ∈ x.nested, n.name = "card" ∧
      ∃ c ∈ x.content.value, ∃ u, usage? c = some u ∧ u.name = n.localName ∧
        RootPlan.baseOf? standardProject.library x.source.imports u.name = none ∧
        UsesTag (x.input standardProject.library "note"
          (standardProject.layout.relative noteFiles.template)) c u "c-box" ∧
        ¬UsesTag (x.input standardProject.library "note"
          (standardProject.layout.relative noteFiles.template)) c u "c-card" := by
  obtain ⟨x, outcomes, w', hgather, n, hn, hname, hlocal, -, c, hc, u, hu, huse, hbase⟩ :=
    exists_parts_of_showsCard "Card as Box" "Box" (by decide +kernel :
        NoteInPlace _ "import \x7b Card as Box \x7d from './card'; const Note = () => <div><Box /></div>;")
      String.toList_ofList fun text htext => by
        rw [Source.parse, htext]
        decide +kernel
  have huse : u.name = n.localName := huse.trans hlocal.symm
  refine ⟨x, outcomes, w', hgather, n, hn, hname, c, hc, u, hu, huse, hbase, ?_, ?_⟩
  · exact (usesTag_nested_iff hgather hn hu huse hbase).2 (by rw [hlocal]; decide)
  · rw [usesTag_nested_iff hgather hn hu huse hbase, hlocal]
    decide

end Project

end JsxToJinja
