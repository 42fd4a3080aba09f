import JsxToJinja.Proofs.Code.Readings
import JsxToJinja.Proofs.Text.Pieces

/-! What content shows once the paths in its code have values, and what an expression shows as the
child of an element. The content of an expression shows what the expression shows. -/
namespace JsxToJinja
open JsxToJinja.Text JsxToJinja.Code JsxToJinja.Markup

/-- Something seen. An element counts as one item with what its tag says. -/
inductive Item where
  | text (text : String)
  | reference (name : String)
  | element (usage : Usage)
  /-- Code that was not understood, iterates or calls. -/
  | code (code : String)
deriving DecidableEq

def Item.ofText (t : String) : List Item := if t.isEmpty then [] else [.text t]

def Item.ofReference (env : String → Json) (name : String) : List Item :=
  if (env name).isTruthy then [.reference name] else []

namespace Code.Expression

/-- What an expression shows. Values that are false show nothing, nor do truth values. -/
def shown (env : String → Json) : Expression → List Item
  | path x => Item.ofReference env x
  | str v => Item.ofText v
  | markup u => [.element u]
  | absent => []
  | compare _ _ _ => []
  | not _ => []
  | join .conj a b => if a.truth env then b.shown env else []
  | join .disj a b => if a.truth env then a.shown env else b.shown env
  | cond c a b => if c.truth env then a.shown env else b.shown env

end Code.Expression

namespace Content

noncomputable def codeShown (env : String → Json) (code : String) : List Item :=
  (meaning? code).elim [.code code] (·.shown env)

/-- The first link that is true, or the last. -/
noncomputable def renderChain (env : String → Json) : List String → List Item
  | [] => []
  | [link] => codeShown env link
  | link :: rest => if codeTruth env link then codeShown env link else renderChain env rest

mutual

noncomputable def render (env : String → Json) : Content → List Item
  | .literal t => Item.ofText t
  | .reference n none => Item.ofReference env n
  | .reference _ (some c) => render env c
  | .element u _ => [.element u]
  | .component u _ => [.element u]
  | .conditional c body => if codeTruth env c then renderAll env body else []
  | .conditionalComponent c u _ => if codeTruth env c then [.element u] else []
  | .fallback chain => renderChain env chain
  | .ternary c a b => if codeTruth env c then render env a else render env b
  | .branches bs => renderBranches env bs
  | .arrayMap l _ => [.code l.array]
  | .call f _ => [.code f]
  | .unsupported c => [.code c]

noncomputable def renderAll (env : String → Json) : List Content → List Item
  | [] => []
  | c :: cs => render env c ++ renderAll env cs

/-- The first branch whose condition is true, or the one without a condition. -/
noncomputable def renderBranches (env : String → Json) : List Branch → List Item
  | [] => []
  | b :: bs => renderBranch env b (renderBranches env bs)

/-- A branch, and what comes instead of it. -/
noncomputable def renderBranch (env : String → Json) : Branch → List Item → List Item
  | .mk none body, _ => renderAll env body
  | .mk (some c) body, others => if codeTruth env c then renderAll env body else others

end

variable {env : String → Json} {read : Reader}

/-! ### Code -/

theorem value_ofOperands (operands : List (List Char)) :
    (ofOperands read operands).value = operands.map fun o => (ofOperand read o).value := by
  induction operands with
  | nil => rfl
  | cons o rest ih => simp [ofOperands, ih]

theorem isMemberPath_of_isPath {t : List Char} (h : IsPath t) : isMemberPath t = true := by
  have hchars {t : List Char} (ht : isIdentifier t = true) {d : Char}
      (hd : isIdentifierChar d = false) : d ∉ t := fun hm => by
    simp [isIdentifierChar_of_mem ht hm] at hd
  have hname {t : List Char} (ht : isIdentifier t = true) (r : List Char) :
      splitOn ['.'] (t ++ '.' :: r) = t :: splitOn ['.'] r := splitOn_char (hchars ht (by decide)) r
  have hall : (splitOn ['.'] (replaceAll ['?', '.'] ['.'] t)).all isIdentifier = true := by
    induction h with
    | @name t ht =>
      have hq : replaceAll ['?', '.'] ['.'] t = t := by
        have := replaceAll_plain (hchars ht (d := '?') (by decide)) ['.'] ['.'] []
        simpa [replaceAll, splitOn, piecesFrom, List.intercalate] using this
      rw [hq, splitOn_plain (hchars ht (by decide))]
      simpa using ht
    | @dot t r ht _ ih =>
      have hplain : '?' ∉ t ++ ['.'] := by
        simp [hchars ht (d := '?') (by decide)]
      have hq := replaceAll_plain hplain ['.'] ['.'] r
      rw [List.append_assoc, List.singleton_append, List.append_assoc, List.singleton_append] at hq
      rw [hq, hname ht]
      simpa [ht] using ih
    | @link t r ht _ ih =>
      have hq := replaceAll_plain (hchars ht (d := '?') (by decide)) ['.'] ['.'] ('?' :: '.' :: r)
      have hhit := replaceAll_hit '?' ['.'] ['.'] r
      rw [List.singleton_append] at hhit
      rw [hq, hhit, List.singleton_append, hname ht]
      simpa [ht] using ih
  have hne : t.isEmpty = false := by simpa using h.edged.ne_nil
  simp only [isMemberPath, h.edged.trimmed.trim_eq, hne, hall]
  rfl

/-- Paths and texts are no calls of `map`. -/
theorem containsTopLevel_map {t : List Char} (h : IsPath t ∨ ∃ v, Quoted v t) :
    containsTopLevel t ".map(".toList = false := by
  rcases h with h | ⟨v, h⟩
  · have hchars : '(' ∉ t := by
      have hname {t : List Char} (ht : isIdentifier t = true) : '(' ∉ t := fun hm =>
        absurd (isIdentifierChar_of_mem ht hm) (by decide)
      induction h with
      | name ht => exact hname ht
      | dot ht _ ih => simp [hname ht, ih]
      | link ht _ ih => simp [hname ht, ih]
    exact containsTopLevel_of_notMem (by decide) hchars
  · have hs : Sealed ['.'] t := h.sealed
    have hcut : Cutting ['.'] '.' := ⟨by simp, by decide, by decide⟩
    exact hs.containsTopLevel_eq_false hcut ['m', 'a', 'p', '(']

end Content

end JsxToJinja
