import JsxToJinja.Content.Bindings
import JsxToJinja.Proofs.Code.Expression
import JsxToJinja.Proofs.Markup.Trees

/-! Content of trees of elements. Extraction from a written tree gives what the tree shows, and
nothing to review. -/
namespace JsxToJinja
open JsxToJinja.Text JsxToJinja.Code JsxToJinja.Markup

namespace Reviewed

theorem pure_bind (a : α) (f : α → Reviewed β) : (pure a : Reviewed α) >>= f = f a := rfl

theorem eq_pure {x : Reviewed α} {a : α} (hv : x.value = a) (hr : x.review = []) : x = pure a := by
  cases x
  cases hv
  cases hr
  rfl

end Reviewed

namespace Content

def ofText (t : List Char) : List Content :=
  if (collapse t).isEmpty then [] else [.literal (String.ofList (collapse t))]

/-- A tag around its children; a fragment gives the children alone. -/
def tagged (tag : OpeningTag) (children : List Content) : List Content :=
  if tag.name.isEmpty then children
  else if isComponentName tag.name then [.component ⟨tag.name, tag.props, tag.spreads⟩ children]
  else [.element ⟨tag.name, tag.props, tag.spreads⟩ children]

def guardedBy (condition : String) : List Content → Content
  | [.component u children] => .conditionalComponent condition u children
  | body => .conditional condition body

def chosenBy (condition : String) (yes no : List Content) : Content :=
  if no.isEmpty then .conditional condition yes
  else if yes.isEmpty then .conditional ("!(" ++ condition ++ ")") no
  else match yes, no with
    | [a], [b] => .ternary condition a b
    | _, _ => .branches [.mk (some condition) yes, .mk none no]

end Content

namespace Markup.Tree
open Content

def content : {k : Part} → Tree k → List Content
  | _, closed tag => tagged tag.opening []
  | _, paired tag inner => tagged tag.opening inner.content
  | _, nested e => e.content
  | _, guarded c e => [guardedBy (String.ofList c.chars) e.content]
  | _, choice c yes no => [chosenBy (String.ofList c.chars) yes.content no.content]
  | _, last t => ofText t
  | _, next t child rest => ofText t ++ (child.content ++ rest.content)

/-! ### Content without loops and references -/

/-- No name in the content is looked up, and nothing in it iterates. -/
structure Settled (c : Content) : Prop where
  resolve : ∀ bound, c.resolve bound = c
  loopless : c.iterates = false

theorem resolveAll_of_settled {cs : List Content} (h : ∀ c ∈ cs, Settled c)
    (bound : String → Option Content) : resolveAll bound cs = cs := by
  induction cs with
  | nil => rfl
  | cons c cs ih =>
    rw [resolveAll, (h c (by simp)).resolve, ih fun d hd => h d (by simp [hd])]

theorem walkAll_of_settled {cs : List Content} (h : ∀ c ∈ cs, Settled c) :
    (walkAll cs).any isLoop = false := by
  induction cs with
  | nil => rfl
  | cons c cs ih =>
    have hc := (h c (by simp)).loopless
    rw [iterates] at hc
    rw [walkAll, List.any_append, hc, ih fun d hd => h d (by simp [hd])]
    rfl

theorem settled_tagged {tag : OpeningTag} {cs : List Content} (h : ∀ c ∈ cs, Settled c) :
    ∀ c ∈ tagged tag cs, Settled c := by
  have hr := resolveAll_of_settled h
  have hw := walkAll_of_settled h
  intro c hc
  unfold tagged at hc
  split at hc
  · exact h c hc
  · split at hc
    all_goals
      rw [List.mem_singleton.1 hc]
      exact ⟨fun bound => by simp [resolve, hr], by simpa [iterates, walk, isLoop] using hw⟩

theorem settled_conditional {c : String} {cs : List Content} (h : ∀ c ∈ cs, Settled c) :
    Settled (.conditional c cs) :=
  ⟨fun bound => by rw [resolve, resolveAll_of_settled h], by
    simpa [iterates, walk, isLoop] using walkAll_of_settled h⟩

theorem settled_guardedBy {c : String} {cs : List Content} (h : ∀ c ∈ cs, Settled c) :
    Settled (guardedBy c cs) := by
  unfold guardedBy
  split
  · rename_i u children
    obtain ⟨hr, hl⟩ := h (.component u children) (by simp)
    refine ⟨fun bound => ?_, by simpa [iterates, walk, isLoop] using hl⟩
    have := hr bound
    simp only [resolve, Content.component.injEq, true_and] at this
    rw [resolve, this]
  · exact settled_conditional h

theorem settled_chosenBy {c : String} {yes no : List Content} (hy : ∀ c ∈ yes, Settled c)
    (hn : ∀ c ∈ no, Settled c) : Settled (chosenBy c yes no) := by
  unfold chosenBy
  split
  · exact settled_conditional hy
  · split
    · exact settled_conditional hn
    · split
      · rename_i a b _ _
        obtain ⟨hra, hla⟩ := hy a (by simp)
        obtain ⟨hrb, hlb⟩ := hn b (by simp)
        rw [iterates] at hla hlb
        refine ⟨fun bound => by rw [resolve, hra, hrb], ?_⟩
        rw [iterates, walk, List.any_cons, List.any_append, hla, hlb]
        rfl
      · refine ⟨fun bound => ?_, ?_⟩
        · simp only [resolve, resolveBranches, resolveBranch, resolveAll_of_settled hy,
            resolveAll_of_settled hn]
        · simp [iterates, walk, walkBranches, walkBranch, isLoop, walkAll_of_settled hy,
            walkAll_of_settled hn]

theorem settled_ofText (t : List Char) : ∀ c ∈ ofText t, Settled c := by
  intro c hc
  unfold ofText at hc
  split at hc
  · cases hc
  · rw [List.mem_singleton.1 hc]
    exact ⟨fun bound => rfl, rfl⟩

/-- The content of a tree iterates nothing and has no name to resolve. -/
theorem settled_content {k : Part} (t : Tree k) : ∀ c ∈ t.content, Settled c := by
  induction t with
  | closed tag => exact settled_tagged (by simp)
  | paired tag inner ih => exact settled_tagged ih
  | nested e ih => exact ih
  | guarded c e ih =>
    rintro x (_ | ⟨_, ⟨⟩⟩)
    exact settled_guardedBy ih
  | choice c yes no ihy ihn =>
    rintro x (_ | ⟨_, ⟨⟩⟩)
    exact settled_chosenBy ihy ihn
  | last t => exact settled_ofText t
  | next t child rest ihc ihr =>
    intro x hx
    simp only [content, List.mem_append] at hx
    rcases hx with hx | hx | hx
    · exact settled_ofText t x hx
    · exact ihc x hx
    · exact ihr x hx

/-! ### Extraction -/

variable {read : Reader}

theorem ofNodes_append {a b : List Node} {x y : List Content} (ha : ofNodes read a = pure x)
    (hb : ofNodes read b = pure y) : ofNodes read (a ++ b) = pure (x ++ y) := by
  have happend : (ofNodes read (a ++ b)).value = (ofNodes read a).value ++ (ofNodes read b).value ∧
      (ofNodes read (a ++ b)).review = (ofNodes read a).review ++ (ofNodes read b).review := by
    clear ha
    induction a with
    | nil => exact ⟨rfl, rfl⟩
    | cons n a ih => simp [ofNodes, ih.1, ih.2]
  exact Reviewed.eq_pure (by rw [happend.1, ha, hb]; rfl) (by rw [happend.2, ha, hb]; rfl)

theorem ofNodes_singleton (n : Node) : ofNodes read [n] = ofNode read n := by
  have hbind : ofNodes read [n] = ofNode read n >>= fun cs => pure (cs ++ []) := rfl
  rw [hbind]
  cases h : ofNode read n with
  | mk value review => simp [bind, pure]

theorem ofNodes_withText (t : List Char) :
    ofNodes read (withText t.reverse []) = pure (ofText t) := by
  simp only [withText, ofText, List.reverse_reverse]
  split
  · rfl
  · rfl

theorem ofElement_tagged {e : Element} {children : List Content}
    (h : ofNodes read e.children = pure children) :
    ofElement read e = pure (tagged ⟨e.name, e.props, e.spreads, e.selfClosing⟩ children) := by
  obtain ⟨name, props, spreads, nodes, closed, start, stop⟩ := e
  have hc : ofNodes read nodes = pure children := h
  simp only [ofElement, hc, Reviewed.pure_bind, tagged]
  split
  · rfl
  · split
    · rfl
    · rfl

/-- An element as an operand is read as a whole. -/
theorem ofOperand_print {t : Tree .element} (h : t.Inert true)
    (hc : ofNodes read (t.nodes 0) = pure t.content) : ofOperand read t.print = pure t.content := by
  obtain ⟨e, hnodes, hwhole⟩ := h.wholeElement?_print
  have hgroup : isGroup '(' t.print = false := isGroup_of_head (by simp [head?_print])
  have hsome : isNothing t.print = false := by
    have hne (w : List Char) (hw : w.head? ≠ some '<') : (t.print == w) = false := by
      rw [beq_eq_false_iff_ne]
      rintro rfl
      exact hw t.head?_print
    simp only [isNothing, List.any_cons, List.any_nil, Bool.or_false, Bool.or_eq_false_iff]
    and_intros <;> exact hne _ (by decide)
  simp only [ofOperand, stripOuterParens_of_not_group t.trimmed_print hgroup, hsome, hwhole]
  rw [hnodes, ofNodes_singleton, ofNode] at hc
  simpa using hc

theorem stripOuterParens_condition {c : ConditionName} {code : List Char} (hc : c.chars <+: code)
    (ht : Trimmed code) : stripOuterParens code = code := by
  obtain ⟨rest, rfl⟩ := hc
  exact stripOuterParens_of_not_group ht (isGroup_of_head (head?_name_ne c.isName (by decide) rest))

theorem code_name (c : ConditionName) : code c.chars = String.ofList c.chars := by
  rw [code, stripProps_of_isIdentifier c.isName]

/-- An element under a condition is found behind the `&&`. -/
theorem ofExpressionStep_guarded (c : ConditionName) {e : Tree .element} (h : e.Inert true)
    (he : ofOperand read e.print = pure e.content) :
    ofExpressionStep read (guardedCode c e.print) =
      pure [guardedBy (String.ofList c.chars) e.content] := by
  have hstrip : stripOuterParens (guardedCode c e.print) = guardedCode c e.print :=
    stripOuterParens_condition (prefix_guardedCode c e.print) (trimmed_guardedCode c e)
  have hne : (guardedCode c e.print).isEmpty = false := by
    simp [guardedCode, ne_nil_of_isIdentifier c.isName]
  have hquestion : Sealed ['?'] (guardedCode c e.print) := sealed_guardedCode c (by simp) h.sealed
  have hbar : Sealed ['|'] (guardedCode c e.print) := sealed_guardedCode c (by simp) h.sealed
  have hnobar : Cutting ['|'] '|' := ⟨by simp, by decide, by decide⟩
  have hor : containsTopLevel (guardedCode c e.print) "||".toList = false :=
    hbar.containsTopLevel_eq_false hnobar ['|']
  have hcut : Cutting operatorChars '&' := ⟨by decide, by decide, by decide⟩
  have hspace : Sealed operatorChars [' '] := sealed_of_ordinary (by decide)
  have hfront : Sealed operatorChars (c.chars ++ [' ']) := (sealed_condition c).append hspace
  have hback : Sealed operatorChars (' ' :: e.print) := .plain (by decide) (by decide) h.sealed
  have htext : guardedCode c e.print = (c.chars ++ [' ']) ++ '&' :: (['&'] ++ ' ' :: e.print) := by
    simp [guardedCode]
  have hand : containsTopLevel (guardedCode c e.print) "&&".toList = true := by
    rw [htext]
    exact hfront.containsTopLevel_append hcut ['&'] _
  have hsplit : splitTopLevel (guardedCode c e.print) "&&".toList = [c.chars, e.print] := by
    have hpieces : splitTopLevel (['&', '&'].intercalate [c.chars ++ [' '], ' ' :: e.print]) ['&', '&'] = _ :=
      splitTopLevel_intercalate hcut (n := ['&']) (by decide) (by simp [hfront, hback])
    have hblank : Blank [' '] := by simp [Blank, isBlank]
    have htrimc : trim (c.chars ++ [' ']) = c.chars :=
      trim_pad blank_nil (trimmed_of_isIdentifier c.isName) hblank
    have htrime : trim (' ' :: e.print) = e.print := by
      simpa using trim_pad hblank e.trimmed_print blank_nil
    have hjoin : ['&', '&'].intercalate [c.chars ++ [' '], ' ' :: e.print] =
        guardedCode c e.print := by
      simp [guardedCode, List.intercalate]
    rw [hjoin] at hpieces
    simpa [htrimc, htrime, ne_nil_of_isIdentifier c.isName, e.print_ne_nil] using hpieces
  have hcondition : code (" && ".toList.intercalate [c.chars]) = String.ofList c.chars := by
    simpa [List.intercalate] using code_name c
  have hconj : ofConjunction read (guardedCode c e.print) =
      pure [guardedBy (String.ofList c.chars) e.content] := by
    simp only [ofConjunction, hsplit, List.getLast?_cons_cons, List.getLast?_singleton,
      List.dropLast_cons_cons, List.dropLast_singleton, hcondition, he, Reviewed.pure_bind]
    split
    · rename_i hbody
      rw [hbody]
      rfl
    · rename_i hother
      rw [guardedBy.eq_2 _ _ hother]
  simp only [ofExpressionStep, hstrip, hne, hquestion.splitTernary?_eq_none (by simp), hor,
    hquestion.containsTopLevel_coalesce (by simp), hand, hconj, Bool.false_eq_true, if_false,
    Bool.or_self, if_true]

theorem ofTernary_chosenBy {yes no : List Char} {a b : List Content}
    (ha : ofOperand read yes = pure a) (hb : ofOperand read no = pure b)
    (hloops : (a ++ b).any iterates = false) (condition : List Char) :
    ofTernary read condition yes no = pure (chosenBy (code condition) a b) := by
  simp only [ofTernary, ha, hb, Reviewed.pure_bind, hloops, chosenBy, Bool.false_eq_true, if_false]
  rcases a with _ | ⟨x, _ | ⟨y, a⟩⟩ <;> rcases b with _ | ⟨z, _ | ⟨u, b⟩⟩ <;> rfl

/-- A choice between two trees is read as a choice between their contents. -/
theorem ofExpressionStep_choice (c : ConditionName) {yes no : Tree .element} (hy : yes.Inert true)
    (hyes : ofOperand read yes.print = pure yes.content)
    (hno : ofOperand read no.print = pure no.content) :
    ofExpressionStep read (choiceCode c yes.print no.print) =
      pure [chosenBy (String.ofList c.chars) yes.content no.content] := by
  have hstrip := stripOuterParens_condition (prefix_choiceCode c yes.print no.print)
    (trimmed_choiceCode c yes.print no)
  have hne : (choiceCode c yes.print no.print).isEmpty = false := by
    simp [choiceCode]
  have hblank : Blank [' '] := by simp [Blank, isBlank]
  have htrimc : trim (c.chars ++ [' ']) = c.chars :=
    trim_pad blank_nil (trimmed_of_isIdentifier c.isName) hblank
  have htrimy : trim (' ' :: (yes.print ++ [' '])) = yes.print := by
    simpa using trim_pad hblank yes.trimmed_print hblank
  have htrimn : trim (' ' :: no.print) = no.print := by
    simpa using trim_pad hblank no.trimmed_print blank_nil
  have hspace : Sealed operatorChars [' '] := sealed_of_ordinary (by decide)
  have hyspace : Sealed operatorChars (' ' :: (yes.print ++ [' '])) :=
    .plain (by decide) (by decide) (hy.sealed.append hspace)
  have hsplit : splitTernary? (choiceCode c yes.print no.print) =
      some (c.chars, yes.print, no.print) := by
    have hpaired := hyspace.paired (by decide) (by decide)
    have h := splitTernary?_conditional (y := ' ' :: no.print) ((sealed_condition c).append hspace)
      (by decide) hpaired ⟨' ', by simp, by decide⟩ ⟨' ', by simp, by decide, by decide⟩
    rw [htrimc, htrimy, htrimn] at h
    exact h (ne_nil_of_isIdentifier c.isName) yes.print_ne_nil no.print_ne_nil
  have hloops : (yes.content ++ no.content).any iterates = false := by
    rw [List.any_eq_false]
    intro x hx
    rcases List.mem_append.1 hx with hx | hx
    · simp [(settled_content yes x hx).loopless]
    · simp [(settled_content no x hx).loopless]
  have hternary := ofTernary_chosenBy hyes hno hloops c.chars
  rw [code_name] at hternary
  simp only [ofExpressionStep, hstrip, hne, hsplit, hternary, Reviewed.pure_bind,
    Bool.false_eq_true, if_false]

/-- A reader that follows expressions of fewer than so many characters to their end. -/
def Follows (read : Reader) (n : Nat) : Prop :=
  ∀ t, t.length < n → ∃ depth, t.length ≤ depth ∧
    read t = ofExpressionStep (ofExpressionWithin depth) t

theorem Follows.mono {read : Reader} {m n : Nat} (h : Follows read n) (hm : m ≤ n) :
    Follows read m :=
  fun t ht => h t (by omega)

theorem follows_ofExpression (n : Nat) : Follows ofExpression n := fun t _ =>
  ⟨t.length, Nat.le_refl _, rfl⟩

theorem follows_ofExpressionWithin {n depth : Nat} (h : n ≤ depth) :
    Follows (ofExpressionWithin depth) n := by
  intro t ht
  obtain ⟨d, rfl⟩ := Nat.exists_eq_succ_of_ne_zero (by omega : depth ≠ 0)
  exact ⟨d, by omega, rfl⟩

/-- The nodes of a tree give its content and nothing to review. -/
theorem Inert.ofNodes_eq {k : Part} {t : Tree k} {embedded : Bool} (h : t.Inert embedded)
    (pos : Nat) {read : Reader} (hr : Follows read t.print.length) :
    ofNodes read (t.nodes pos) = pure t.content := by
  induction t generalizing embedded pos read with
  | closed tag =>
    have hnone : ofNodes read [] = pure [] := rfl
    rw [nodes, ofNodes_singleton, ofNode, ofElement_tagged hnone]
    rfl
  | paired tag inner ih =>
    have hle : inner.print.length ≤ (paired tag inner).print.length := by
      simp only [print, List.length_append]
      omega
    have hinner := ih h (pos + tag.text.length) (hr.mono hle)
    rw [nodes, ofNodes_singleton, ofNode, ofElement_tagged hinner]
    rfl
  | nested e ih => exact ih h pos hr
  | guarded c e ih =>
    have hlen : (guardedCode c e.print).length < (guarded c e).print.length := by
      simp only [print, List.length_cons, List.length_append]
      omega
    obtain ⟨depth, hd, hread⟩ := hr _ hlen
    have hdeep : e.print.length ≤ depth := by
      simp only [guardedCode, List.length_append] at hd
      omega
    have hoperand := ofOperand_print h (ih h 0 (follows_ofExpressionWithin hdeep))
    rw [nodes, ofNodes_singleton, ofNode, String.toList_ofList, hread,
      ofExpressionStep_guarded c h hoperand]
    rfl
  | choice c yes no ihy ihn =>
    have hlen : (choiceCode c yes.print no.print).length < (choice c yes no).print.length := by
      simp only [print, List.length_cons, List.length_append]
      omega
    obtain ⟨depth, hd, hread⟩ := hr _ hlen
    have hdeep : yes.print.length ≤ depth ∧ no.print.length ≤ depth := by
      simp only [choiceCode, List.length_append, List.length_cons] at hd
      omega
    have hyes := ofOperand_print h.1 (ihy h.1 0 (follows_ofExpressionWithin hdeep.1))
    have hno := ofOperand_print h.2 (ihn h.2 0 (follows_ofExpressionWithin hdeep.2))
    rw [nodes, ofNodes_singleton, ofNode, String.toList_ofList, hread,
      ofExpressionStep_choice c h.1 hyes hno]
    rfl
  | last t => exact ofNodes_withText t
  | next t child rest ihc ihr =>
    have hle : child.print.length ≤ (next t child rest).print.length ∧
        rest.print.length ≤ (next t child rest).print.length := by
      simp only [print, List.length_append]
      omega
    have hchild := ihc h.2.1 (pos + t.length) (hr.mono hle.1)
    have hrest := ihr h.2.2 (pos + t.length + child.print.length) (hr.mono hle.2)
    exact ofNodes_append (ofNodes_withText t) (ofNodes_append hchild hrest)

def inner : Tree .element → List Content
  | closed _ => []
  | paired _ inside => inside.content

/-- The root of a written tree shows what stands between its tags, and only the statements before it
bring up items for review. -/
theorem Inert.ofRoot_print {t : Tree .element} {embedded : Bool} (h : t.Inert embedded)
    {e : Element} (he : t.nodes 0 = [.element e]) (preamble : List Char) :
    ofRoot e preamble = ⟨t.inner, (Bindings.ofPreamble preamble).review⟩ := by
  have hchildren : ofNodes ofExpression e.children = pure t.inner := by
    cases t with
    | closed tag =>
      simp only [nodes, List.cons.injEq, Node.element.injEq, and_true] at he
      rw [← he]
      rfl
    | paired tag inside =>
      simp only [nodes, List.cons.injEq, Node.element.injEq, and_true] at he
      rw [← he]
      exact Inert.ofNodes_eq (t := inside) h _ (follows_ofExpression _)
  have hsettled : ∀ c ∈ t.inner, Settled c := by
    cases t with
    | closed tag => simp [inner]
    | paired tag inside => exact settled_content inside
  rw [ofRoot, hchildren, Reviewed.pure_bind]
  simp only [resolveAll_of_settled hsettled]
  simp [bind, pure]

end Markup.Tree

end JsxToJinja
