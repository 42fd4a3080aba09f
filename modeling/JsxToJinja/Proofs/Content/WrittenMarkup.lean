import JsxToJinja.Proofs.Content.TreeContent

/-! Content of written markup over any reader: its tags around what the reader makes of the code between
its braces. -/
namespace JsxToJinja
open JsxToJinja.Text JsxToJinja.Code JsxToJinja.Markup

namespace Content

variable {read : Reader}

theorem value_ofNodes_append (a b : List Node) :
    (ofNodes read (a ++ b)).value = (ofNodes read a).value ++ (ofNodes read b).value := by
  induction a with
  | nil => rfl
  | cons n a ih => simp [ofNodes, ih]

theorem value_ofElement (e : Element) :
    (ofElement read e).value =
      tagged ⟨e.name, e.props, e.spreads, e.selfClosing⟩ (ofNodes read e.children).value := by
  obtain ⟨name, props, spreads, nodes, closed, start, stop⟩ := e
  simp only [ofElement, Reviewed.value_bind, tagged]
  split
  · rfl
  split <;> rfl

mutual

theorem resolve_none : (c : Content) → resolve (fun _ => none) c = c
  | .reference _ none | .reference _ (some _) => rfl
  | .element u cs | .component u cs | .conditional c cs | .conditionalComponent c u cs
  | .arrayMap l cs => by simp [resolve, resolveAll_none cs]
  | .ternary c a b => by simp [resolve, resolve_none a, resolve_none b]
  | .branches bs => by simp [resolve, resolveBranches_none bs]
  | .literal _ | .fallback _ | .call _ _ | .unsupported _ => rfl

/-- Without statements before the markup, names stand for nothing. -/
theorem resolveAll_none : (cs : List Content) → resolveAll (fun _ => none) cs = cs
  | [] => rfl
  | c :: cs => by simp [resolveAll, resolve_none c, resolveAll_none cs]

theorem resolveBranches_none : (bs : List Branch) → resolveBranches (fun _ => none) bs = bs
  | [] => rfl
  | .mk c body :: bs => by
    simp [resolveBranches, resolveBranch, resolveAll_none body, resolveBranches_none bs]

end

end Content

namespace Markup.Frame
open Content

def content (shown : List Char → List Content) : {k : Part} → Frame k → List Content
  | _, closed tag => tagged tag.opening []
  | _, paired tag inner => tagged tag.opening (inner.content shown)
  | _, nested e => e.content shown
  | _, braces code => shown (trim code)
  | _, last t => ofText t
  | _, next t child rest => ofText t ++ (child.content shown ++ rest.content shown)

variable {read : Reader}

theorem value_ofText (t : List Char) : (ofNodes read (withText t.reverse [])).value = ofText t := by
  rw [Tree.ofNodes_withText]
  rfl

/-- The nodes of markup give its content. -/
theorem value_ofNodes {k : Part} (f : Frame k) (pos : Nat) :
    (ofNodes read (f.nodes pos)).value = f.content fun c => (read c).value := by
  induction f generalizing pos with
  | closed tag => rw [nodes, Tree.ofNodes_singleton, ofNode, value_ofElement]; rfl
  | paired tag inner ih =>
    rw [nodes, Tree.ofNodes_singleton, ofNode, value_ofElement, ih]
    rfl
  | nested e ih => exact ih pos
  | braces code => rw [nodes, Tree.ofNodes_singleton, ofNode, String.toList_ofList]; rfl
  | last t => exact value_ofText t
  | next t child rest ihc ihr =>
    rw [nodes, value_ofNodes_append, value_ofNodes_append, value_ofText, ihc, ihr]
    rfl

def opening : Frame .element → OpeningTag
  | closed tag => tag.opening
  | paired tag _ => tag.opening

/-- Markup that makes up the whole text is read as one element. -/
theorem Fits.wholeElement {f : Frame .element} {embedded : Bool} (h : f.Fits embedded) :
    ∃ e, wholeElement? f.print = some e ∧ e.name = f.opening.name ∧ e.props = f.opening.props ∧
      e.spreads = f.opening.spreads ∧
      ∀ read, (ofElement read e).value = f.content fun c => (read c).value := by
  obtain ⟨e, hnodes, hwhole⟩ := h.wholeElement?_print
  have htag : e.name = f.opening.name ∧ e.props = f.opening.props ∧
      e.spreads = f.opening.spreads := by
    cases f with
    | closed tag =>
      simp only [nodes, List.cons.injEq, Node.element.injEq, and_true] at hnodes
      simp [← hnodes, opening]
    | paired tag inner =>
      simp only [nodes, List.cons.injEq, Node.element.injEq, and_true] at hnodes
      simp [← hnodes, opening]
  refine ⟨e, hwhole, htag.1, htag.2.1, htag.2.2, fun read => ?_⟩
  rw [← value_ofNodes f 0, hnodes, Tree.ofNodes_singleton, ofNode]

/-- Markup with something behind it does not make up the whole text. -/
theorem Fits.wholeElement?_append {f : Frame .element} {embedded : Bool} (h : f.Fits embedded)
    {rest : List Char} (hne : rest ≠ []) : wholeElement? (f.print ++ rest) = none := by
  obtain ⟨e, hnodes, hread⟩ := h.reads ((f.print ++ rest).length + 2) 0 rest (Nat.le_add_right _ _)
  have hpos : 0 < rest.length := List.length_pos_iff.2 hne
  have hstop : ¬ e.stop = (f.print ++ rest).length := by
    rw [f.stop_of_nodes hnodes, List.length_append]
    omega
  simp only [Content.wholeElement?, parseElement?, List.drop_zero, hread, Option.map_some,
    Option.bind_some]
  rw [if_neg (by simpa using hstop)]

theorem isNothing_of_head {t : List Char} (h : t.head? = some '<') : isNothing t = false := by
  have hne (w : List Char) (hw : w.head? ≠ some '<') : (t == w) = false := by
    rw [beq_eq_false_iff_ne]
    rintro rfl
    exact hw h
  simp only [isNothing, List.any_cons, List.any_nil, Bool.or_false, Bool.or_eq_false_iff]
  and_intros <;> exact hne _ (by decide)

def inner (shown : List Char → List Content) : Frame .element → List Content
  | closed _ => []
  | paired _ inside => inside.content shown

/-- The content of written markup, with no statements before it. -/
theorem Fits.ofRoot {f : Frame .element} {embedded : Bool} (h : f.Fits embedded) :
    ∃ e, firstElement? f.print = some e ∧
      (ofRoot e []).value = f.inner fun c => (ofExpression c).value := by
  obtain ⟨e, hnodes, hparse, -⟩ := h.parseElement?_print
  refine ⟨e, ?_, ?_⟩
  · have hopen : firstTag? f.print = some 0 := by
      cases f with
      | closed tag =>
        obtain ⟨c, s, hs, hc, -⟩ := tag.isTag.opens
        simp [print, hs, firstTag?, opensTag, hc]
      | paired tag inner =>
        obtain ⟨c, s, hs, hc, -⟩ := tag.isTag.opens
        simp [print, hs, firstTag?, opensTag, hc]
    rw [firstElement?, hopen, Option.bind_some, hparse]
  · have hchildren : (ofNodes ofExpression e.children).value =
        f.inner fun c => (ofExpression c).value := by
      cases f with
      | closed tag =>
        simp only [nodes, List.cons.injEq, Node.element.injEq, and_true] at hnodes
        rw [← hnodes]
        rfl
      | paired tag inside =>
        simp only [nodes, List.cons.injEq, Node.element.injEq, and_true] at hnodes
        rw [← hnodes]
        exact value_ofNodes inside _
    rw [Content.ofRoot, Reviewed.value_bind, Reviewed.value_bind, Reviewed.value_pure, hchildren]
    exact resolveAll_none _

end Markup.Frame

end JsxToJinja
