import JsxToJinja.Project.Convert
import Mathlib.Logic.Function.Iterate

/-! The content that a template shows, and the lines that the components in it become. -/
namespace JsxToJinja.Jinja

namespace Line

theorem deeper_append (a b : List Line) : deeper (a ++ b) = deeper a ++ deeper b := by
  simp [deeper]

def Hold (kind : List Line → Prop) (ls : List Line) : Prop :=
  ∃ depth before block after, kind block ∧ ls = before ++ deeper^[depth] block ++ after

namespace Hold

variable {kind : List Line → Prop} {ls : List Line}

theorem of_kind (h : kind ls) : Hold kind ls := ⟨0, [], ls, [], h, by simp⟩

theorem append_right (h : Hold kind ls) (more : List Line) : Hold kind (ls ++ more) := by
  obtain ⟨depth, before, block, after, hblock, rfl⟩ := h
  exact ⟨depth, before, block, after ++ more, hblock, by simp⟩

theorem append_left (h : Hold kind ls) (more : List Line) : Hold kind (more ++ ls) := by
  obtain ⟨depth, before, block, after, hblock, rfl⟩ := h
  exact ⟨depth, more ++ before, block, after, hblock, by simp⟩

theorem cons (h : Hold kind ls) (l : Line) : Hold kind (l :: ls) := h.append_left [l]

theorem deeper (h : Hold kind ls) : Hold kind (Line.deeper ls) := by
  obtain ⟨depth, before, block, after, hblock, rfl⟩ := h
  refine ⟨depth + 1, Line.deeper before, block, Line.deeper after, hblock, ?_⟩
  simp only [deeper_append, Function.iterate_succ_apply']

theorem wrap (h : Hold kind ls) (opening tag : String) :
    Hold kind (TemplateInput.wrap opening tag none ls) :=
  (h.deeper.cons _).append_right _

theorem inWrapper (h : Hold kind ls) (w : Wrapper) : Hold kind (TemplateInput.inWrapper w ls) :=
  (h.deeper.cons _).append_right _

theorem inWrappers (h : Hold kind ls) (ws : List Wrapper) :
    Hold kind (ws.foldr TemplateInput.inWrapper ls) := by
  induction ws with
  | nil => exact h
  | cons w ws ih => exact ih.inWrapper w

theorem inIf (h : Hold kind ls) (condition : String) :
    Hold kind (TemplateInput.inIf condition ls) :=
  h.deeper.cons _

/-- A base component keeps the lines inside it. -/
theorem baseLines (h : Hold kind ls) {r : BaseResolution}
    (hvoid : TemplateInput.isVoidTag r.tag = false) :
    Hold kind (TemplateInput.baseLines r none ls) := by
  have hinner := h.wrap (TemplateInput.baseOpening r) r.tag
  simp only [TemplateInput.baseLines, hvoid, Bool.false_eq_true, if_false]
  cases r.wrapper with
  | none => exact hinner
  | some w => exact hinner.inWrapper w

end Hold

end Line

namespace TemplateInput

def IsBase (r : BaseResolution) (block : List Line) : Prop :=
  ∃ inline body, block = baseLines r inline body

variable (input : TemplateInput)

/-- The element that a name stands for takes no content. -/
def isVoidBase (name : String) : Bool :=
  (Dict.get? input.inlineComponents name).any fun r => isVoidTag r.tag

mutual

/-- The content and all below it that is shown: an element that takes no content shows none. -/
def shown : Content → List Content
  | .reference n (some r) => .reference n (some r) :: shown r
  | .element u cs => .element u cs :: if isVoidTag u.name then [] else shownAll cs
  | .component u cs => .component u cs :: if input.isVoidBase u.name then [] else shownAll cs
  | .conditional c b => .conditional c b :: shownAll b
  | .conditionalComponent c u cs =>
    .conditionalComponent c u cs :: if input.isVoidBase u.name then [] else shownAll cs
  | .ternary c a b => .ternary c a b :: (shown a ++ shown b)
  | .branches bs => .branches bs :: shownBranches bs
  | .arrayMap l b => .arrayMap l b :: shownAll b
  | c => [c]

def shownAll : List Content → List Content
  | [] => []
  | c :: cs => shown c ++ shownAll cs

def shownBranches : List Branch → List Content
  | [] => []
  | b :: bs => shownBranch b ++ shownBranches bs

def shownBranch : Branch → List Content
  | .mk _ body => shownAll body

end

/-- A tag that takes no content. One known only when the template renders takes any. -/
def isVoidRoot : RootTag → Bool
  | .fixed tag => isVoidTag tag
  | .dynamic _ => false

def rootTag : String :=
  match input.root.tag with
  | .fixed tag => tag
  | .dynamic _ => output "tag_name"

def startTag (options : Options) : List Line :=
  .top ("<" ++ input.rootTag) ::
    Line.deeper ((closeLast (input.rootAttributes options input.rootTag)).map Line.top)

/-- The content that the root shows. Other content may take its place, and some roots take none. -/
def shownInRoot : List Content :=
  if isVoidRoot input.root.tag || input.customContent.isSome then []
  else input.shownAll input.content

/-- The lines of the root: in its wrappers the start tag, and in it the content. -/
theorem rootLines_eq (options : Options) :
    ∃ setup after, (input.rootLines options).value = setup ++ input.root.wrappers.foldr inWrapper
      (.top ("<" ++ input.rootTag) ::
        Line.deeper ((closeLast (input.rootAttributes options input.rootTag)).map Line.top ++
          (if isVoidRoot input.root.tag then [] else input.bodyLines.value)) ++ after) := by
  rw [rootTag]
  cases htag : input.root.tag with
  | fixed tag =>
    refine ⟨[], if isVoidTag tag then [] else [closing tag], ?_⟩
    simp only [rootLines, htag, isVoidRoot]
    by_cases hvoid : isVoidTag tag = true
    · simp only [hvoid, if_true, Reviewed.value_bind, Reviewed.value_pure]
    · simp only [hvoid, if_false, Bool.false_eq_true, Reviewed.value_bind, Reviewed.value_pure]
  | dynamic code =>
    refine ⟨[.top (statement ("set tag_name = " ++
      (templateLiteral? input.names code).getD (input.jinja code)))], [closing (output "tag_name")], ?_⟩
    simp only [rootLines, htag, isVoidRoot]
    rfl

/-- The start tag of the root stands in its lines. -/
theorem hold_startTag (options : Options) :
    Line.Hold (· = input.startTag options) (input.rootLines options).value := by
  obtain ⟨setup, after, hlines⟩ := rootLines_eq input options
  rw [hlines]
  refine Line.Hold.append_left (Line.Hold.inWrappers ?_ _) setup
  rw [Line.deeper_append, ← List.cons_append, List.append_assoc]
  have hself : Line.Hold (· = input.startTag options) (input.startTag options) := .of_kind rfl
  exact hself.append_right _

/-! ### Components in the lines -/

/-- The content is a use of a component. -/
inductive UseOf (u : Usage) : Content → Prop where
  | component (children : List Content) : UseOf u (.component u children)
  | conditionalComponent (condition : String) (children : List Content) :
      UseOf u (.conditionalComponent condition u children)

/-- The lines of a use hold a block of a kind, whatever is between its tags. -/
def Writes (kind : List Line → Prop) (u : Usage) : Prop :=
  ∀ loops inline noChildren body,
    Line.Hold kind (input.componentLines loops u inline noChildren body).value

variable {input} {kind : List Line → Prop} {u : Usage} {r : BaseResolution} {c : Content}

/-- A base component in the content writes its markup, whatever stands between its tags. -/
theorem writes_isBase (hr : Dict.get? input.inlineComponents u.name = some r) :
    input.Writes (IsBase r) u := by
  intro loops inline noChildren body
  rw [componentLines, hr]
  dsimp only
  split
  · exact .of_kind ⟨inline, [], rfl⟩
  · exact .of_kind ⟨inline, body.value, rfl⟩

/-- What a component holds between its tags is kept. -/
theorem hold_componentLines {body : Reviewed (List Line)} (h : Line.Hold kind body.value)
    {v : Usage} (hvoid : input.isVoidBase v.name = false) (loops : List OpenLoop) :
    Line.Hold kind (input.componentLines loops v none false body).value := by
  rw [componentLines]
  rw [isVoidBase] at hvoid
  cases hv : Dict.get? input.inlineComponents v.name with
  | none => exact h.wrap _ _
  | some outer =>
    have houter : isVoidTag outer.tag = false := by simpa [hv] using hvoid
    simp only [houter, Option.isSome_none, Bool.or_self, Bool.false_eq_true, if_false,
      Reviewed.value_bind, Reviewed.value_pure]
    exact h.baseLines houter

/-- A side of a conditional that is an expression holds no component. -/
theorem valueText?_of_use (hu : UseOf u c) {d : Content} (h : c ∈ input.shown d) :
    input.valueText? d = none := by
  match d with
  | .literal t | .reference n none =>
    cases List.mem_singleton.1 h
    cases hu
  | .reference _ (some _) | .element .. | .component .. | .conditional .. |
    .conditionalComponent .. | .fallback _ | .ternary .. | .branches _ | .arrayMap .. | .call .. |
    .unsupported _ => rfl

theorem joinInline_eq_none {parts : List (Option String)} (h : none ∈ parts) :
    joinInline parts = none := by
  have hnone : parts.mapM id = none := by
    induction parts with
    | nil => cases h
    | cons p parts ih =>
      rcases List.mem_cons.1 h with rfl | h
      · rfl
      · rw [List.mapM_cons, ih h]
        cases p <;> rfl
  rw [joinInline, hnone]
  rfl

mutual

/-- Content with a component in it does not fit on a line. -/
theorem inline?_of_use (hu : UseOf u c) :
    ∀ d : Content, c ∈ input.shown d → input.inline? d = none
  | .literal t, h | .reference n none, h | .fallback chain, h | .call f a, h
  | .unsupported code, h => by
    cases List.mem_singleton.1 h
    cases hu
  | .reference n (some d), _ => rfl
  | .component v cs, _ => rfl
  | .conditionalComponent k v cs, _ => rfl
  | .branches bs, _ => rfl
  | .arrayMap l b, _ => rfl
  | .element v cs, h => by
    rw [shown] at h
    rcases List.mem_cons.1 h with rfl | h
    · cases hu
    · rw [inline?]
      split at h
      · cases h
      · rw [if_neg ‹_›, joinInline_eq_none (inlineEach_of_use hu cs h)]
        rfl
  | .conditional k b, h => by
    rw [shown] at h
    rcases List.mem_cons.1 h with rfl | h
    · cases hu
    · have hnone := inlineEach_of_use hu b h
      rw [inline?]
      split
      · rename_i hone
        rw [hone] at hnone
        simp at hnone
      · rfl
  | .ternary k a b, h => by
    rw [shown] at h
    rcases List.mem_cons.1 h with rfl | h
    · cases hu
    · rw [inline?]
      rcases List.mem_append.1 h with h | h
      · rw [valueText?_of_use hu h]
        rfl
      · rw [valueText?_of_use hu h]
        cases input.valueText? a <;> rfl

theorem inlineEach_of_use (hu : UseOf u c) :
    ∀ ds : List Content, c ∈ input.shownAll ds → none ∈ input.inlineEach ds
  | [], h => nomatch h
  | d :: ds, h => by
    rw [shownAll, List.mem_append] at h
    rw [inlineEach, List.mem_cons]
    rcases h with h | h
    · exact .inl (inline?_of_use hu d h).symm
    · exact .inr (inlineEach_of_use hu ds h)

end

/-- What stands between the tags of a component. -/
theorem hold_inside (hu : UseOf u c) {v : Usage} {cs : List Content} (loops : List OpenLoop)
    (h : c ∈ if input.isVoidBase v.name then [] else input.shownAll cs)
    (hcs : c ∈ input.shownAll cs → Line.Hold kind (input.linesAll loops cs).value) :
    Line.Hold kind (input.componentLines loops v (joinInline (input.inlineEach cs)) cs.isEmpty
      (input.linesAll loops cs)).value := by
  split at h
  · cases h
  · rename_i hvoid
    rw [joinInline_eq_none (inlineEach_of_use hu cs h)]
    cases cs with
    | nil => cases h
    | cons d ds => exact hold_componentLines (hcs h) (Bool.eq_false_iff.2 hvoid) loops

mutual

/-- The lines of some content hold the block of every use that is shown in it. -/
theorem hold_lines (hu : UseOf u c) (hown : input.Writes kind u) :
    ∀ (d : Content) (loops : List OpenLoop), c ∈ input.shown d →
      Line.Hold kind (input.lines loops d).value
  | .literal t, _, h | .reference n none, _, h | .fallback chain, _, h | .call f a, _, h
  | .unsupported code, _, h => by
    cases List.mem_singleton.1 h
    cases hu
  | .reference n (some d), loops, h => by
    rw [shown] at h
    rw [lines]
    rcases List.mem_cons.1 h with rfl | h
    · cases hu
    · exact hold_lines hu hown d loops h
  | .element v cs, loops, h => by
    have hinline := inline?_of_use hu _ h
    rw [shown] at h
    rw [lines, hinline]
    rcases List.mem_cons.1 h with rfl | h
    · cases hu
    · split at h
      · cases h
      · dsimp only
        rw [if_neg ‹_›]
        exact (hold_linesAll hu hown cs loops h).wrap _ _
  | .component v cs, loops, h => by
    rw [shown] at h
    rw [lines]
    rcases List.mem_cons.1 h with rfl | h
    · cases hu
      exact hown _ _ _ _
    · exact hold_inside hu loops h (hold_linesAll hu hown cs loops)
  | .conditional k b, loops, h => by
    have hinline := inline?_of_use hu _ h
    rw [shown] at h
    rw [lines, hinline]
    rcases List.mem_cons.1 h with rfl | h
    · cases hu
    · exact ((hold_linesAll hu hown b loops h).inIf _).append_right _
  | .conditionalComponent k v cs, loops, h => by
    rw [shown] at h
    rw [lines]
    refine Line.Hold.append_right (Line.Hold.inIf ?_ _) _
    rcases List.mem_cons.1 h with rfl | h
    · cases hu
      exact hown _ _ _ _
    · exact hold_inside hu loops h (hold_linesAll hu hown cs loops)
  | .ternary k a b, loops, h => by
    have hinline := inline?_of_use hu _ h
    rw [shown] at h
    rw [lines, hinline]
    rcases List.mem_cons.1 h with rfl | h
    · cases hu
    · refine Line.Hold.append_right ?_ _
      rcases List.mem_append.1 h with h | h
      · exact ((hold_lines hu hown a loops h).inIf _).append_right _
      · exact ((hold_lines hu hown b loops h).deeper.cons _).append_left _
  | .branches bs, loops, h => by
    rw [shown] at h
    rw [lines]
    rcases List.mem_cons.1 h with rfl | h
    · cases hu
    · exact (hold_branchLines hu hown bs true loops h).append_right _
  | .arrayMap l b, loops, h => by
    rw [shown] at h
    rw [lines]
    rcases List.mem_cons.1 h with rfl | h
    · cases hu
    · exact (((hold_linesAll hu hown b _ h).append_left _).deeper.cons _).append_right _

theorem hold_linesAll (hu : UseOf u c) (hown : input.Writes kind u) :
    ∀ (ds : List Content) (loops : List OpenLoop), c ∈ input.shownAll ds →
      Line.Hold kind (input.linesAll loops ds).value
  | [], _, h => nomatch h
  | d :: ds, loops, h => by
    rw [shownAll, List.mem_append] at h
    rw [linesAll]
    rcases h with h | h
    · exact (hold_lines hu hown d loops h).append_right _
    · exact (hold_linesAll hu hown ds loops h).append_left _

theorem hold_branchLines (hu : UseOf u c) (hown : input.Writes kind u) :
    ∀ (bs : List Branch) (isFirst : Bool) (loops : List OpenLoop), c ∈ input.shownBranches bs →
      Line.Hold kind (input.branchLines loops isFirst bs).value
  | [], _, _, h => nomatch h
  | b :: bs, isFirst, loops, h => by
    rw [shownBranches, List.mem_append] at h
    rw [branchLines]
    rcases h with h | h
    · exact (hold_armLines hu hown b isFirst loops h).append_right _
    · exact (hold_branchLines hu hown bs false loops h).append_left _

theorem hold_armLines (hu : UseOf u c) (hown : input.Writes kind u) :
    ∀ (b : Branch) (isFirst : Bool) (loops : List OpenLoop), c ∈ input.shownBranch b →
      Line.Hold kind (input.armLines loops isFirst b).value
  | .mk k body, isFirst, loops, h => by
    rw [armLines.eq_def]
    exact (hold_linesAll hu hown body loops h).deeper.cons _

end

theorem hold_bodyLines (hu : UseOf u c) (hown : input.Writes kind u)
    (hcustom : input.customContent = none) (h : c ∈ input.shownAll input.content) :
    Line.Hold kind input.bodyLines.value := by
  have hlines := hold_linesAll hu hown input.content [] h
  rw [bodyLines, hcustom]
  dsimp only
  split
  · rename_i hempty
    rw [List.isEmpty_iff.1 hempty] at h
    cases h
  · exact hlines

/-- The root holds the block of every use that it shows. -/
theorem hold_rootLines (hu : UseOf u c) (hown : input.Writes kind u)
    (h : c ∈ input.shownInRoot) (options : Options) : Line.Hold kind (input.rootLines options).value := by
  rw [shownInRoot] at h
  split at h
  · cases h
  · rename_i hshown
    rw [Bool.or_eq_true, not_or, Option.not_isSome_iff_eq_none, Bool.not_eq_true] at hshown
    obtain ⟨setup, after, hlines⟩ := rootLines_eq input options
    rw [hlines, hshown.1, if_neg Bool.false_ne_true]
    refine Line.Hold.append_left (Line.Hold.inWrappers ?_ _) setup
    exact ((hold_bodyLines hu hown hshown.2 h).append_left _).deeper.cons _ |>.append_right after

end TemplateInput

end JsxToJinja.Jinja
