import JsxToJinja.Proofs.Project.ForwardedRoot
import JsxToJinja.Proofs.Project.ShownContent

/-! Base components in the content: which properties the markup of a use comes from. -/
namespace JsxToJinja
open JsxToJinja.Markup

/-- Two resolutions give the same element: its tag, its classes and its attributes. -/
def BaseResolution.SameElement (r s : BaseResolution) : Prop :=
  r.tag = s.tag ∧ r.classes = s.classes ∧ r.attributes = s.attributes

namespace Project
open Jinja Jinja.TemplateInput

theorem usage?_eq_some {c : Content} {u : Usage} : usage? c = some u ↔ UseOf u c := by
  constructor
  · intro h
    cases c with
    | component v children =>
      cases h
      exact .component children
    | conditionalComponent condition v children =>
      cases h
      exact .conditionalComponent condition children
    | _ => cases h
  · rintro (_ | _) <;> rfl

def firstUse? (content : List Content) (name : String) : Option Usage :=
  ((Content.walkAll content).filterMap usage?).find? (·.name == name)

/-- What an import makes of a use: a base component with the properties of that use. -/
def baseOfUse? (library : BaseLibrary) (source : Source) (u : Usage) : Option BaseResolution :=
  (RootPlan.baseOf? library source.imports u.name).map fun b =>
    library.resolve b.library b.component (literalProps u)

section

variable (library : BaseLibrary) (source : Source) (root : Element)

def addUse (acc : Dict BaseResolution) (u : Usage) : Dict BaseResolution :=
  if u.name == root.name || Dict.has acc u.name then acc else
    match RootPlan.baseOf? library source.imports u.name with
    | some b => Dict.insert u.name (library.resolve b.library b.component (literalProps u)) acc
    | none => acc

theorem get?_addUse_of_ne {u : Usage} {name : String} (h : name ≠ u.name)
    (acc : Dict BaseResolution) :
    Dict.get? (addUse library source root acc u) name = Dict.get? acc name := by
  rw [addUse]
  split
  · rfl
  · split
    · exact Dict.get?_insert_of_ne _ _ h
    · rfl

/-- An entry that is there stays, and the root's own name never gets one. -/
theorem get?_addUse_self (u : Usage) (acc : Dict BaseResolution) :
    Dict.get? (addUse library source root acc u) u.name =
      (Dict.get? acc u.name).or (if u.name = root.name then none else baseOfUse? library source u) := by
  rw [addUse, baseOfUse?]
  by_cases hroot : u.name = root.name
  · simp [hroot]
  · cases hget : Dict.get? acc u.name with
    | some r => simp [Dict.has, hget]
    | none =>
      rw [if_neg (by simp [hroot, Dict.has, hget]), if_neg hroot]
      cases RootPlan.baseOf? library source.imports u.name with
      | none => exact hget
      | some b => exact Dict.get?_insert_self _ _ _

variable {library source} in
/-- Nothing stands for a name that no import binds. -/
theorem bind_baseOfUse?_find?_of_none {name : String}
    (h : RootPlan.baseOf? library source.imports name = none) (us : List Usage) :
    (us.find? (·.name == name)).bind (baseOfUse? library source) = none := by
  rw [Option.bind_eq_none_iff]
  intro u hu
  have hname : u.name = name := by simpa using List.find?_some hu
  rw [baseOfUse?, hname, h]
  rfl

/-- Base components are collected by the first use of each name. The name of the root is left out,
as the root is resolved on its own. -/
theorem get?_foldl_addUse (us : List Usage) (acc : Dict BaseResolution) (name : String) :
    Dict.get? (us.foldl (addUse library source root) acc) name =
      (Dict.get? acc name).or (if name = root.name then none else
        (us.find? (·.name == name)).bind (baseOfUse? library source)) := by
  induction us generalizing acc with
  | nil => simp
  | cons u us ih =>
    rw [List.foldl_cons, ih, List.find?_cons]
    by_cases hname : u.name = name
    · subst hname
      rw [get?_addUse_self]
      cases Dict.get? acc u.name with
      | some r => rfl
      | none =>
        by_cases hroot : u.name = root.name
        · simp [hroot]
        · simp only [hroot, if_false, Option.none_or, beq_self_eq_true, Option.bind_some]
          cases hbase : RootPlan.baseOf? library source.imports u.name with
          | none => simp [baseOfUse?, hbase, bind_baseOfUse?_find?_of_none hbase]
          | some b => simp [baseOfUse?, hbase]
    · rw [get?_addUse_of_ne library source root (Ne.symm hname), beq_false_of_ne hname]

/-- The entry of a name comes from its first use. -/
theorem get?_inlineComponents (content : List Content) (name : String) :
    Dict.get? (inlineComponents library source root content) name =
      if name = root.name then none else
        (firstUse? content name).bind (baseOfUse? library source) := by
  have hfold := get?_foldl_addUse library source root ((Content.walkAll content).filterMap usage?) [] name
  exact hfold

end

/-- A use of a base component is shown as a resolution: the template keeps it for the name, the lines
made for the use are its markup, and they stand in the root. -/
structure ShownAs (input : Jinja.TemplateInput) (c : Content) (u : Usage) (r : BaseResolution) :
    Prop where
  kept : Dict.get? input.inlineComponents u.name = some r
  own (loops : List OpenLoop) : Line.Hold (IsBase r) (input.lines loops c).value
  inRoot (options : Jinja.Options) : Line.Hold (IsBase r) (input.rootLines options).value

theorem shownAs_iff {input : Jinja.TemplateInput} {c : Content} {u : Usage} {r : BaseResolution}
    (hc : c ∈ input.shownInRoot) (hu : usage? c = some u) :
    ShownAs input c u r ↔ Dict.get? input.inlineComponents u.name = some r := by
  have huse := usage?_eq_some.1 hu
  have hself : c ∈ input.shown c := by
    cases huse <;> exact List.mem_cons_self
  exact ⟨ShownAs.kept, fun hr => ⟨hr, fun loops => hold_lines huse (writes_isBase hr) c loops hself,
    hold_rootLines huse (writes_isBase hr) hc⟩⟩

/-- A use of a base component is shown with its own properties exactly if it is not named like the
root and the first use of its name has properties that give the same element. -/
theorem inline_base_has_own_props_iff (x : Parts) (library : BaseLibrary) (name sourceFile : String)
    {c : Content} (hc : c ∈ (x.input library name sourceFile).shownInRoot) {u : Usage}
    (hu : usage? c = some u) {b : BaseComponentRef}
    (hb : RootPlan.baseOf? library x.source.imports u.name = some b) :
    (∃ r, ShownAs (x.input library name sourceFile) c u r ∧
      r.SameElement (library.resolve b.library b.component (literalProps u))) ↔
    u.name ≠ x.root.value.name ∧ ∃ first ∈ firstUse? x.content.value u.name,
      (library.resolve b.library b.component (literalProps first)).SameElement
        (library.resolve b.library b.component (literalProps u)) := by
  have hentry : Dict.get? (x.input library name sourceFile).inlineComponents u.name = _ :=
    get?_inlineComponents library x.source x.root.value x.content.value u.name
  have hbase {first : Usage} (hfirst : firstUse? x.content.value u.name = some first) :
      baseOfUse? library x.source first =
        some (library.resolve b.library b.component (literalProps first)) := by
    have hname : first.name = u.name := by simpa using List.find?_some hfirst
    rw [baseOfUse?, hname, hb]
    rfl
  simp only [shownAs_iff hc hu, hentry]
  constructor
  · rintro ⟨r, hr, hsame⟩
    split at hr
    · cases hr
    · rename_i hroot
      obtain ⟨first, hfirst, hr⟩ := Option.bind_eq_some_iff.1 hr
      rw [hbase hfirst] at hr
      cases hr
      exact ⟨hroot, first, hfirst, hsame⟩
  · rintro ⟨hroot, first, hfirst, hsame⟩
    refine ⟨_, ?_, hsame⟩
    rw [if_neg hroot, Option.mem_def.1 hfirst]
    exact hbase hfirst

/-! ### A note with two alerts -/

def alertOf (type : String) : Element := ⟨"Alert", [⟨"type", .literal type⟩], [], [], true, 0, 0⟩

def twoAlerts (first second : String) : Parts :=
  { text := "", source := noteSource, attributes := [], applied := {}, nested := [], failures := []
    root := pure ⟨"div", [], [], [.element (alertOf first), .element (alertOf second)], false, 0, 0⟩ }

def alertUse (type : String) : Usage := ⟨"Alert", [⟨"type", .literal type⟩], []⟩

def alertBase : BaseComponentRef := ⟨Builtin.libraryName, "Alert"⟩

def twoAlertsInput (first second : String) : Jinja.TemplateInput :=
  (twoAlerts first second).input {} "note" "note.tsx"

theorem content_twoAlerts (first second : String) :
    (twoAlerts first second).content.value =
      [.component (alertUse first) [], .component (alertUse second) []] := rfl

theorem second_mem_shownInRoot (first second : String) :
    .component (alertUse second) [] ∈ (twoAlertsInput first second).shownInRoot := by
  have htag : (twoAlertsInput first second).root.tag = .fixed "div" := by
    have hplain : isComponentName "div" = false := by decide
    simp [twoAlertsInput, twoAlerts, Parts.input, Parts.plan, RootPlan.make, RootPlan.resolveRoot,
      RootPlan.plain, noteSource, Element.isComponent, hplain]
  have hcontent : (twoAlertsInput first second).content = _ := content_twoAlerts first second
  have hcustom : (twoAlertsInput first second).customContent = none := rfl
  have hopen : isVoidTag "div" = false := by decide
  simp [shownInRoot, htag, hcontent, hcustom, hopen, isVoidRoot, shownAll, shown]

theorem firstUse?_twoAlerts (first second : String) :
    firstUse? (twoAlerts first second).content.value "Alert" = some (alertUse first) := by
  rw [content_twoAlerts]
  rfl

theorem two_errors_shown_as_errors :
    .component (alertUse "error") [] ∈ (twoAlertsInput "error" "error").shownInRoot ∧
    RootPlan.baseOf? {} noteSource.imports "Alert" = some alertBase ∧
    ∃ r, ShownAs (twoAlertsInput "error" "error") (.component (alertUse "error") [])
        (alertUse "error") r ∧
      r.SameElement (({} : BaseLibrary).resolve Builtin.libraryName "Alert"
        [("type", .str "error")]) := by
  have hshown := second_mem_shownInRoot "error" "error"
  have hbase : RootPlan.baseOf? {} noteSource.imports "Alert" = some alertBase := by decide
  refine ⟨hshown, hbase, (inline_base_has_own_props_iff (twoAlerts "error" "error") {} "note" "note.tsx"
    hshown rfl hbase).2 ⟨by decide, alertUse "error", firstUse?_twoAlerts _ _, rfl, rfl, rfl⟩⟩

/-- An alert that comes second is shown with the type of the first. -/
theorem second_alert_keeps_first_type :
    ¬ ∃ r, ShownAs (twoAlertsInput "info" "error") (.component (alertUse "error") [])
        (alertUse "error") r ∧
      r.SameElement (({} : BaseLibrary).resolve Builtin.libraryName "Alert"
        [("type", .str "error")]) := by
  rintro ⟨r, hr, hsame⟩
  have hkept : Dict.get? (twoAlertsInput "info" "error").inlineComponents "Alert" =
      baseOfUse? {} noteSource (alertUse "info") := by
    have hentry := get?_inlineComponents {} noteSource (twoAlerts "info" "error").root.value
      (twoAlerts "info" "error").content.value "Alert"
    rwa [firstUse?_twoAlerts, if_neg (by decide)] at hentry
  have hclasses : (baseOfUse? {} noteSource (alertUse "info")).map (·.classes) ≠
      some (({} : BaseLibrary).resolve Builtin.libraryName "Alert" [("type", .str "error")]).classes := by
    decide
  have hr : Dict.get? (twoAlertsInput "info" "error").inlineComponents "Alert" = some r := hr.kept
  rw [← hkept, hr, Option.map_some, hsame.2.1] at hclasses
  exact hclasses rfl

end Project

end JsxToJinja
