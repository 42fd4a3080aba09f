import JsxToJinja.Proofs.Jinja.BalancedMarkup

/-! The lines of content close every block that they open, however deep loops, conditionals and
components stand in one another. -/
namespace JsxToJinja
open JsxToJinja.Text JsxToJinja.Markup JsxToJinja.Jinja

theorem Content.mem_walk_self (c : Content) : c ∈ Content.walk c := by
  cases c with
  | reference name resolved => cases resolved <;> simp [walk]
  | _ => simp [walk]

namespace Jinja.TemplateInput

variable {input : TemplateInput}

/-! ### Content on one line -/

mutual

/-- Content on one line closes the tags it opens. -/
theorem balanced_inline? (h : input.Plain) :
    (c : Content) → (∀ d ∈ Content.walk c, d.Plain input) → ∀ text ∈ input.inline? c, Balanced text.toList
  | .literal t, hc => by
    intro text htext
    rw [inline?] at htext
    obtain rfl := Option.some.inj htext
    have hplain := hc _ (Content.mem_walk_self _)
    exact .of_tagFree (tagFree_ofList (hplain.texts t (List.mem_singleton_self _)).trim)
  | .reference name none, hc => by
    intro text htext
    rw [inline?] at htext
    obtain rfl := Option.some.inj htext
    exact balanced_outputOf ((hc _ (Content.mem_walk_self _)).codes name (List.mem_singleton_self _))
  | .fallback chain, hc => by
    intro text htext
    rw [inline?] at htext
    obtain rfl := Option.some.inj htext
    exact balanced_fallbackText (hc _ (Content.mem_walk_self _)).codes
  | .call function argument, hc => by
    intro text htext
    rw [inline?] at htext
    obtain rfl := Option.some.inj htext
    have hargument := (hc _ (Content.mem_walk_self _)).codes argument (List.mem_singleton_self _)
    refine (Piece.output ?_).balanced
    simp [tagFree_append, tagFree_cons, tagFree_nil, Apart, hargument]
  | .ternary condition a b, hc => by
    intro text htext
    rw [inline?] at htext
    obtain ⟨yes, hyes, htext⟩ := Option.bind_eq_some_iff.1 htext
    obtain ⟨no, hno, htext⟩ := Option.bind_eq_some_iff.1 htext
    obtain rfl := Option.some.inj htext
    rw [Content.walk] at hc
    obtain ⟨hown, hsides⟩ := List.forall_mem_cons.1 hc
    obtain ⟨ha, hb⟩ := List.forall_mem_append.1 hsides
    have hcondition := hown.codes condition (List.mem_singleton_self _)
    have hfirst := tagFree_valueText? (ha a (Content.mem_walk_self a)) yes hyes
    have hsecond := tagFree_valueText? (hb b (Content.mem_walk_self b)) no hno
    refine (Piece.output ?_).balanced
    simp [tagFree_append, tagFree_cons, Apart, hcondition, hfirst, hsecond]
  | .conditional condition body, hc => by
    intro text htext
    rw [Content.walk] at hc
    obtain ⟨hown, hbody⟩ := List.forall_mem_cons.1 hc
    have hparts := balanced_inlineEach h body hbody
    rw [inline?] at htext
    split at htext
    · rename_i inner hinner
      obtain rfl := Option.some.inj htext
      rw [hinner] at hparts
      have htext' := hparts _ (List.mem_singleton_self _) inner rfl
      exact (Piece.guarded (hown.codes condition (List.mem_singleton_self _)) htext').balanced
    · cases htext
  | .element u children, hc => by
    intro text htext
    rw [Content.walk] at hc
    obtain ⟨hown, hchildren⟩ := List.forall_mem_cons.1 hc
    have hparts := balanced_inlineEach h children hchildren
    rw [inline?] at htext
    split at htext
    · cases htext
    · obtain ⟨inner, hinner, rfl⟩ := Option.map_eq_some_iff.1 htext
      have hname : TagFree u.name.toList := hown.texts u.name (by simp [Content.texts, Usage.texts])
      exact balanced_element (piece_opening hname (piece_elementAttributes h hown))
        (by simp [List.getLast?_cons])
        (balanced_joinInline hparts inner hinner) hname
  | .reference _ (some _), _ | .component .., _ | .conditionalComponent .., _ | .branches _, _
  | .arrayMap .., _ | .unsupported _, _ => fun _ htext => nomatch htext

theorem balanced_inlineEach (h : input.Plain) :
    (cs : List Content) → (∀ d ∈ Content.walkAll cs, d.Plain input) →
      ∀ part ∈ input.inlineEach cs, ∀ text ∈ part, Balanced text.toList
  | [], _ => by simp [inlineEach]
  | c :: cs, hall => by
    rw [Content.walkAll] at hall
    obtain ⟨hc, hcs⟩ := List.forall_mem_append.1 hall
    rw [inlineEach]
    exact List.forall_mem_cons.2 ⟨balanced_inline? h c hc, balanced_inlineEach h cs hcs⟩

end

/-! ### Lines -/

theorem nested_closing {tag : String} (h : TagFree tag.toList) : Line.Nested [closing tag] :=
  .top (balanced_closing h)

/-- Children between the tags of their parent. -/
theorem nested_wrap {opening tag : String} (hopening : Piece opening.toList)
    (hlast : opening.toList.getLast? = some '>') (htag : TagFree tag.toList) {inline : Option String}
    (hinline : ∀ text ∈ inline, Balanced text.toList) {body : List Line}
    (hbody : inline = none → Line.Nested body) : Line.Nested (wrap opening tag inline body) := by
  cases inline with
  | some text => exact .top (balanced_element hopening hlast (hinline text rfl) htag)
  | none => exact (Line.Nested.cons hopening.balanced (hbody rfl).deeper).append (nested_closing htag)

theorem nested_inWrapper {w : Wrapper} (hw : ∀ s ∈ w.texts, TagFree s.toList) {body : List Line}
    (hbody : Line.Nested body) : Line.Nested (inWrapper w body) := by
  obtain ⟨htag, hclasses⟩ := List.forall_mem_cons.1 hw
  exact (Line.Nested.cons (piece_opening htag (piece_classText hclasses)).balanced hbody.deeper).append
    (nested_closing htag)

/-- A base component as plain markup. -/
theorem nested_baseLines {r : BaseResolution} (hr : ∀ s ∈ r.texts, TagFree s.toList)
    {inline : Option String} (hinline : ∀ text ∈ inline, Balanced text.toList) {body : List Line}
    (hbody : isVoidTag r.tag = false → inline = none → Line.Nested body) :
    Line.Nested (baseLines r inline body) := by
  simp only [BaseResolution.texts, List.forall_mem_append, List.forall_mem_cons,
    List.forall_mem_flatMap] at hr
  obtain ⟨⟨⟨htag, hclasses⟩, hattributes⟩, hwrapper⟩ := hr
  have hopening : Piece (baseOpening r).toList := by
    have htexts : Piece (classText r.classes ++ String.join (r.attributes.map fun a =>
        " " ++ attributeText a.1 (escapeAttribute a.2))).toList := by
      rw [String.toList_append]
      refine (piece_classText hclasses).append (.join (List.forall_mem_map.2 fun a ha => .blank ?_))
      exact balanced_escaped (hattributes a ha).1 (hattributes a ha).2.1
    have htext : baseOpening r = "<" ++ r.tag ++ (classText r.classes ++
        String.join (r.attributes.map fun a =>
          " " ++ attributeText a.1 (escapeAttribute a.2))) ++ ">" := by
      simp only [baseOpening, String.append_assoc]
    rw [htext]
    exact piece_opening htag htexts
  have hlast : (baseOpening r).toList.getLast? = some '>' := by simp [baseOpening, List.getLast?_cons]
  have hinner : Line.Nested
      (if isVoidTag r.tag then [.top (baseOpening r)] else wrap (baseOpening r) r.tag inline body) := by
    split
    · exact .top hopening.balanced
    · rename_i hvoid
      exact nested_wrap hopening hlast htag hinline (hbody (by simpa using hvoid))
  rw [baseLines]
  cases hw : r.wrapper with
  | some w => exact nested_inWrapper (hwrapper w (by simp [hw])) hinner
  | none => exact hinner

/-- Attributes for the item of a loop. -/
theorem piece_spreadText (h : input.Plain) {loop : OpenLoop} (hitem : TagFree loop.1.toList)
    (u : Usage) : Piece (input.spreadText loop u).value.toList := by
  rw [spreadText]
  dsimp only
  split
  · exact .nil
  · rename_i shape hshape
    have hprops := h.shape (Option.eq_some_of_filter_eq_some hshape)
    refine .join (List.forall_mem_map.2 fun p hp => ?_)
    have hp := hprops p (List.mem_of_mem_filter hp)
    have hvalue : Balanced (input.names.resolve loop.1 ++ "." ++ p).toList := by
      have hname := input.tagFree_resolve hitem
      refine .of_tagFree ?_
      simp [tagFree_append, tagFree_cons, Apart, hname, hp]
    rw [String.toList_append]
    exact .cons (.cons (balanced_attributeText hp hvalue) (by decide)) (by decide)

theorem piece_spreadTexts (h : input.Plain) (loops : List OpenLoop) (u : Usage) {spreads : List String}
    (hspreads : ∀ s ∈ spreads, TagFree s.toList) :
    Piece (input.spreadTexts loops u spreads).value.toList := by
  induction spreads with
  | nil => exact .nil
  | cons s rest ih =>
    obtain ⟨hs, hrest⟩ := List.forall_mem_cons.1 hspreads
    rw [spreadTexts]
    split
    · rename_i loop hloop
      have hitem : loop.1 = s := by simpa using List.find?_some hloop
      have hfirst := piece_spreadText h (hitem ▸ hs) u
      simp only [Reviewed.value_bind, Reviewed.value_pure, String.toList_append]
      exact hfirst.append (ih hrest)
    · simp only [Reviewed.value_bind, Reviewed.value_pure, String.toList_append]
      exact Piece.nil.append (ih hrest)

/-- A property of a nested component. -/
theorem piece_boundText {u : Usage} (hu : u.Plain input) {p : Property} (hp : p ∈ u.props) :
    Piece (input.boundText p).toList := by
  have hown : ∀ s ∈ p.texts, TagFree s.toList := fun s hs =>
    hu.texts s (List.mem_append_right _ (List.mem_flatMap.2 ⟨p, hp, hs⟩))
  have hname : TagFree p.name.toList := hown _ (by simp [Property.texts])
  rw [boundText]
  split
  · rename_i value hvalue
    exact .blank (balanced_escaped hname (hown value (by simp [Property.texts, hvalue])))
  · rw [String.toList_append]
    exact .cons (.cons (balanced_attributeText hname (.of_tagFree (by decide))) (by decide)) (by decide)
  · rename_i code hvalue
    have hcode := hu.codes code (List.mem_flatMap.2 ⟨p, hp, by simp [Property.codes, hvalue]⟩)
    rw [String.toList_append]
    exact .cons (.cons (balanced_attributeText hname
      (.of_tagFree (tagFree_ofList (hcode.replaceAll (by decide))))) (by decide)) (by decide)

/-- A component, with what is made of its children. -/
theorem nested_componentLines (h : input.Plain) (loops : List OpenLoop) {u : Usage}
    (hu : u.Plain input) {inline : Option String} (hinline : ∀ text ∈ inline, Balanced text.toList)
    (noChildren : Bool) {body : Reviewed (List Line)} (hbody : Line.Nested body.value) :
    Line.Nested (input.componentLines loops u inline noChildren body).value := by
  rw [componentLines]
  split
  · rename_i r hr
    have hbase := h.base hr
    split
    · rename_i hclosed
      refine nested_baseLines hbase hinline fun hvoid hnone => ?_
      simp [hvoid, hnone] at hclosed
    · exact nested_baseLines hbase hinline fun _ _ => hbody
  · have hname : TagFree u.name.toList := hu.texts u.name (by simp [Usage.texts])
    have htag : TagFree (componentTag u.name).toList := by
      have hkebab : TagFree (kebabCase u.name).toList := tagFree_ofList hname.kebab
      simp [componentTag, tagFree_cons, hkebab]
    have hspreads : ∀ s ∈ u.spreads, TagFree s.toList := fun s hs =>
      hu.texts s (by simp [Usage.texts, hs])
    have hhead : Piece ("<" ++ componentTag u.name ++
        String.join ((u.props.filter isRendered).map input.boundText) ++
        (input.spreadTexts loops u u.spreads).value).toList := by
      have hprops : Piece (String.join ((u.props.filter isRendered).map input.boundText)).toList :=
        .join (List.forall_mem_map.2 fun p hp => piece_boundText hu (List.mem_of_mem_filter hp))
      rw [String.toList_append]
      exact (piece_startTag htag hprops).append (piece_spreadTexts h loops u hspreads)
    simp only [Reviewed.value_bind]
    generalize "<" ++ componentTag u.name ++ String.join ((u.props.filter isRendered).map
      input.boundText) ++ (input.spreadTexts loops u u.spreads).value = head at hhead
    have hopening : Piece (head ++ ">").toList := by
      rw [String.toList_append]
      exact hhead.append (.cons .nil (by decide))
    have hlast : (head ++ ">").toList.getLast? = some '>' := by simp
    split
    · refine .top ?_
      rw [String.toList_append]
      exact (hhead.append (.cons (.cons (.cons .nil (by decide)) (by decide)) (by decide))).balanced
    · split
      · rename_i hsome
        refine nested_wrap hopening hlast htag hinline fun hnone => ?_
        simp [hnone] at hsome
      · simp only [Reviewed.value_bind, Reviewed.value_pure]
        exact nested_wrap hopening hlast htag (by simp) fun _ => hbody

/-! ### Blocks -/

theorem nested_todoLines (h : input.Plain) {code : String} (hcode : TagFree code.toList) :
    Line.Nested (input.todoLines code) := by
  have hsource : TagFree input.sourceFile.toList := h.supplied _ (by simp [TemplateInput.texts])
  have hpattern : TagFree (replaceAll ['#', '\x7d'] ['#', ' ', '\x7d'] code.toList) :=
    hcode.replaceAll (by decide)
  have hline : TagFree (toString input.sourceLine).toList :=
    .of_notMem (Number.brace_notMem_text (.int input.sourceLine))
  refine .ofText ?_
  generalize toString input.sourceLine = line at hline
  simp [tagFree_cons, tagFree_append, tagFree_nil, Apart, hsource, hpattern, hline]

/-- Lines under a condition. -/
theorem nested_inIf {condition : String} (hcondition : TagFree condition.toList) {body : List Line}
    (hbody : Line.Nested body) : Line.Nested (inIf condition body ++ [endIf]) := by
  have htags : Line.tags (inIf condition body ++ [endIf]) =
      .opensIf :: Line.tags body ++ Tag.arms [] := by
    rw [inIf, endIf, Line.tags_append, Line.tags_top (writes_if hcondition), Line.tags_deeper,
      Line.tags_top writes_endif]
    rfl
  rw [Line.Nested, htags]
  exact Tag.Neutral.conditional hbody (List.forall_mem_nil _) .nil

/-- Lines under a condition, and others where it does not hold. -/
theorem nested_inIfElse {condition : String} (hcondition : TagFree condition.toList)
    {yes no : List Line} (hyes : Line.Nested yes) (hno : Line.Nested no) :
    Line.Nested (inIf condition yes ++ .top (statement "else") :: Line.deeper no ++ [endIf]) := by
  have htags : Line.tags (inIf condition yes ++ .top (statement "else") :: Line.deeper no ++ [endIf]) =
      .opensIf :: Line.tags yes ++ Tag.arms [(false, Line.tags no)] := by
    simp only [inIf, endIf, List.cons_append, Line.tags_append, Line.tags_deeper,
      Line.tags_top (writes_if hcondition), Line.tags_top writes_else, Line.tags_top writes_endif]
    simp [Tag.arms, Line.tags_nil]
  rw [Line.Nested, htags]
  exact Tag.Neutral.conditional hyes (List.forall_mem_singleton.2 hno) (List.pairwise_singleton _ _)

/-- Lines for every item. -/
theorem nested_loop {head : String} (hhead : TagFree head.toList) {body : List Line}
    (hbody : Line.Nested body) : Line.Nested
      (.top (statement ("for " ++ head)) :: Line.deeper body ++ [.top (statement "endfor")]) := by
  have htags : Line.tags
      (.top (statement ("for " ++ head)) :: Line.deeper body ++ [.top (statement "endfor")]) =
      .opensFor :: Line.tags body ++ [.closesFor] := by
    rw [List.cons_append, Line.tags_top (writes_for hhead), Line.tags_append, Line.tags_deeper,
      Line.tags_top writes_endfor]
    rfl
  rw [Line.Nested, htags]
  exact Tag.Neutral.loop hbody

section Branches

variable {loops : List OpenLoop}

private theorem tags_branch {b : Branch} (hb : ∀ c ∈ b.condition, TagFree (input.jinja c).toList)
    (isFirst : Bool) : Line.tags (input.armLines loops isFirst b).value =
      (if b.condition.isSome then (if isFirst then .opensIf else .elif) else .otherwise) ::
        Line.tags (input.linesAll loops b.body).value := by
  obtain ⟨condition, body⟩ := b
  rw [armLines.eq_def]
  simp only [Reviewed.value_bind, Reviewed.value_pure, Branch.body]
  cases condition with
  | none =>
    rw [Line.tags_top writes_else, Line.tags_deeper]
    rfl
  | some c =>
    have hc := hb c rfl
    cases isFirst with
    | true =>
      dsimp only
      rw [if_pos rfl, Line.tags_top (writes_if hc), Line.tags_deeper]
      rfl
    | false =>
      dsimp only
      rw [if_neg Bool.false_ne_true, Line.tags_top (writes_elif hc), Line.tags_deeper]
      rfl

private theorem tags_laterBranches {bs : List Branch}
    (hconditions : ∀ b ∈ bs, ∀ c ∈ b.condition, TagFree (input.jinja c).toList) :
    Line.tags ((input.branchLines loops false bs).value ++ [endIf]) =
      Tag.arms (bs.map fun b =>
        (b.condition.isSome, Line.tags (input.linesAll loops b.body).value)) := by
  induction bs with
  | nil =>
    rw [branchLines]
    exact Line.tags_top writes_endif []
  | cons b rest ih =>
    obtain ⟨hb, hrest⟩ := List.forall_mem_cons.1 hconditions
    rw [branchLines]
    simp only [Reviewed.value_bind, Reviewed.value_pure]
    rw [List.append_assoc, Line.tags_append, ih hrest, tags_branch hb, List.map_cons, Tag.arms]
    simp

private theorem pairwise_of_dropLast {α : Type} {p : α → Prop} {xs : List α} (h : ∀ x ∈ xs.dropLast, p x) :
    xs.Pairwise fun x _ => p x := by
  induction xs with
  | nil => exact .nil
  | cons x rest ih =>
    cases rest with
    | nil => exact List.pairwise_singleton _ _
    | cons y rest =>
      obtain ⟨hx, hrest⟩ := List.forall_mem_cons.1 h
      exact List.pairwise_cons.2 ⟨fun _ _ => hx, ih hrest⟩

/-- Branches with bodies that close their blocks are one conditional. -/
theorem nested_branches {bs : List Branch} (horder : (Content.branches bs).branchesInOrder = true)
    (hconditions : ∀ b ∈ bs, ∀ c ∈ b.condition, TagFree (input.jinja c).toList)
    (hbodies : ∀ b ∈ bs, Line.Nested (input.linesAll loops b.body).value) :
    Line.Nested ((input.branchLines loops true bs).value ++ [endIf]) := by
  cases bs with
  | nil => cases horder
  | cons b rest =>
    obtain ⟨hb, hrest⟩ := List.forall_mem_cons.1 hconditions
    obtain ⟨hbody, hothers⟩ := List.forall_mem_cons.1 hbodies
    rw [Content.branchesInOrder, Bool.and_eq_true, List.all_eq_true] at horder
    obtain ⟨hfirst, hlater⟩ := horder
    have hcomplete : Tag.Complete (rest.map fun b =>
        (b.condition.isSome, Line.tags (input.linesAll loops b.body).value)) :=
      List.pairwise_map.2 (pairwise_of_dropLast hlater)
    have htags : Line.tags ((input.branchLines loops true (b :: rest)).value ++ [endIf]) =
        .opensIf :: Line.tags (input.linesAll loops b.body).value ++ Tag.arms (rest.map fun b =>
          (b.condition.isSome, Line.tags (input.linesAll loops b.body).value)) := by
      rw [branchLines]
      simp only [Reviewed.value_bind, Reviewed.value_pure]
      rw [List.append_assoc, Line.tags_append, tags_laterBranches hrest, tags_branch hb, if_pos hfirst,
        if_pos rfl]
    rw [Line.Nested, htags]
    exact Tag.Neutral.conditional hbody (List.forall_mem_map.2 hothers) hcomplete

end Branches

/-! ### Content -/

private theorem nested_line {text : Option String} (h : ∀ t ∈ text, Balanced t.toList) :
    Line.Nested (match text with
      | some t => (pure (if t.isEmpty then [] else [.top t]) : Reviewed (List Line))
      | none => pure []).value := by
  cases text with
  | none => exact .nil
  | some t =>
    have ht := h t rfl
    dsimp only [Reviewed.value_pure]
    split
    · exact .nil
    · exact .top ht

private theorem nested_element (h : input.Plain) {loops : List OpenLoop} {u : Usage}
    {children : List Content} (hown : (Content.element u children).Plain input)
    (hinline : ∀ text ∈ input.inline? (.element u children), Balanced text.toList)
    (hbody : Line.Nested (input.linesAll loops children).value) :
    Line.Nested (input.lines loops (.element u children)).value := by
  have hname : TagFree u.name.toList := hown.texts u.name (by simp [Content.texts, Usage.texts])
  have hopening := piece_opening hname (piece_elementAttributes h hown)
  rw [lines]
  split
  · rename_i text htext
    exact .top (hinline text htext)
  · dsimp only
    split
    · exact .top hopening.balanced
    · simp only [Reviewed.value_bind, Reviewed.value_pure]
      exact nested_wrap hopening (by simp [List.getLast?_cons]) hname (by simp) fun _ => hbody

private theorem nested_arrayMap {loops : List OpenLoop} {l : Loop} {body : List Content}
    (hown : (Content.arrayMap l body).Plain input)
    (hbody : Line.Nested (input.linesAll ((l.itemVar, l.array) :: loops) body).value) :
    Line.Nested (input.lines loops (.arrayMap l body)).value := by
  have hitem := input.tagFree_resolve (hown.texts l.itemVar (by simp [Content.texts]))
  have harray := hown.codes l.array (List.mem_singleton_self _)
  have hhead : TagFree (input.names.resolve l.itemVar ++ " in " ++ input.jinja l.array).toList := by
    simp [tagFree_append, tagFree_cons, Apart, hitem, harray]
  have hindex : Line.Nested (l.indexVar.map fun i =>
      Line.top (statement ("set " ++ input.names.resolve i ++ " = loop.index0"))).toList := by
    cases hi : l.indexVar with
    | none => exact .nil
    | some i =>
      have hname := input.tagFree_resolve (hown.texts i (by simp [Content.texts, hi]))
      have hset : TagFree (input.names.resolve i ++ " = loop.index0").toList := by
        simp [tagFree_append, tagFree_cons, tagFree_nil, Apart, hname]
      refine .top ?_
      rw [String.append_assoc]
      exact .of_set hset
  have hfor : "for " ++ input.names.resolve l.itemVar ++ " in " ++ input.jinja l.array =
      "for " ++ (input.names.resolve l.itemVar ++ " in " ++ input.jinja l.array) := by
    simp only [String.append_assoc]
  rw [lines]
  simp only [Reviewed.value_bind, Reviewed.value_pure]
  rw [hfor]
  exact nested_loop hhead (hindex.append hbody)

mutual

/-- Whatever the content, its lines close the blocks that they open. -/
theorem nested_lines (h : input.Plain) (loops : List OpenLoop) :
    (c : Content) → (∀ d ∈ Content.walk c, d.Plain input) → Line.Nested (input.lines loops c).value
  | .reference name (some r), hc => by
    rw [Content.walk] at hc
    rw [lines]
    exact nested_lines h loops r (List.forall_mem_cons.1 hc).2
  | .element u children, hc => by
    have hinline := balanced_inline? h (.element u children) hc
    rw [Content.walk] at hc
    obtain ⟨hown, hchildren⟩ := List.forall_mem_cons.1 hc
    exact nested_element h hown hinline (nested_linesAll h loops children hchildren)
  | .component u children, hc => by
    rw [Content.walk] at hc
    obtain ⟨hown, hchildren⟩ := List.forall_mem_cons.1 hc
    rw [lines]
    exact nested_componentLines h loops ⟨hown.texts, hown.codes⟩
      (balanced_joinInline (balanced_inlineEach h children hchildren)) _
      (nested_linesAll h loops children hchildren)
  | .conditional condition body, hc => by
    have hinline := balanced_inline? h (.conditional condition body) hc
    rw [Content.walk] at hc
    obtain ⟨hown, hbody⟩ := List.forall_mem_cons.1 hc
    have hinner := nested_linesAll h loops body hbody
    rw [lines]
    split
    · rename_i text htext
      exact .top (hinline text htext)
    · simp only [Reviewed.value_bind, Reviewed.value_pure]
      exact nested_inIf (hown.codes condition (List.mem_singleton_self _)) hinner
  | .conditionalComponent condition u children, hc => by
    rw [Content.walk] at hc
    obtain ⟨hown, hchildren⟩ := List.forall_mem_cons.1 hc
    have hu : u.Plain input := ⟨fun s hs => hown.texts s (List.mem_cons_of_mem _ hs),
      fun code hcode => hown.codes code (List.mem_cons_of_mem _ hcode)⟩
    have hinner := nested_componentLines h loops hu
      (balanced_joinInline (balanced_inlineEach h children hchildren)) children.isEmpty
      (nested_linesAll h loops children hchildren)
    rw [lines]
    simp only [Reviewed.value_bind, Reviewed.value_pure]
    exact nested_inIf (hown.codes condition List.mem_cons_self) hinner
  | .ternary condition a b, hc => by
    have hinline := balanced_inline? h (.ternary condition a b) hc
    rw [Content.walk] at hc
    obtain ⟨hown, hsides⟩ := List.forall_mem_cons.1 hc
    obtain ⟨ha, hb⟩ := List.forall_mem_append.1 hsides
    have hyes := nested_lines h loops a ha
    have hno := nested_lines h loops b hb
    rw [lines]
    split
    · rename_i text htext
      exact .top (hinline text htext)
    · simp only [Reviewed.value_bind, Reviewed.value_pure]
      exact nested_inIfElse (hown.codes condition (List.mem_singleton_self _)) hyes hno
  | .branches bs, hc => by
    rw [Content.walk] at hc
    obtain ⟨hown, hbodies⟩ := List.forall_mem_cons.1 hc
    rw [lines]
    simp only [Reviewed.value_bind, Reviewed.value_pure]
    refine nested_branches hown.branches (fun b hb c hcondition => ?_)
      (nested_bodies h loops bs hbodies)
    exact hown.codes c (List.mem_filterMap.2 ⟨b, hb, hcondition⟩)
  | .arrayMap l body, hc => by
    rw [Content.walk] at hc
    obtain ⟨hown, hbody⟩ := List.forall_mem_cons.1 hc
    exact nested_arrayMap hown (nested_linesAll h ((l.itemVar, l.array) :: loops) body hbody)
  | .unsupported code, hc => by
    have hown := hc (.unsupported code) (Content.mem_walk_self _)
    rw [lines, Reviewed.value_pure]
    exact nested_todoLines h (hown.texts code (List.mem_singleton_self _))
  | .literal text, hc => by
    have hinline := balanced_inline? h (.literal text) hc
    simp only [lines]
    generalize input.inline? (.literal text) = line at hinline ⊢
    exact nested_line hinline
  | .reference name none, hc => by
    have hinline := balanced_inline? h (.reference name none) hc
    simp only [lines]
    generalize input.inline? (.reference name none) = line at hinline ⊢
    exact nested_line hinline
  | .fallback chain, hc => by
    have hinline := balanced_inline? h (.fallback chain) hc
    simp only [lines]
    generalize input.inline? (.fallback chain) = line at hinline ⊢
    exact nested_line hinline
  | .call function argument, hc => by
    have hinline := balanced_inline? h (.call function argument) hc
    simp only [lines]
    generalize input.inline? (.call function argument) = line at hinline ⊢
    exact nested_line hinline

/-- Lines of one content after another nest when each of them does. -/
theorem nested_linesAll (h : input.Plain) (loops : List OpenLoop) :
    (cs : List Content) → (∀ d ∈ Content.walkAll cs, d.Plain input) →
      Line.Nested (input.linesAll loops cs).value
  | [], _ => by
    rw [linesAll]
    exact .nil
  | c :: cs, hall => by
    rw [Content.walkAll] at hall
    obtain ⟨hc, hcs⟩ := List.forall_mem_append.1 hall
    rw [linesAll]
    simp only [Reviewed.value_bind, Reviewed.value_pure]
    exact (nested_lines h loops c hc).append (nested_linesAll h loops cs hcs)

theorem nested_bodies (h : input.Plain) (loops : List OpenLoop) :
    (bs : List Branch) → (∀ d ∈ Content.walkBranches bs, d.Plain input) →
      ∀ b ∈ bs, Line.Nested (input.linesAll loops b.body).value
  | [], _ => List.forall_mem_nil _
  | b :: bs, hall => by
    rw [Content.walkBranches] at hall
    obtain ⟨hb, hbs⟩ := List.forall_mem_append.1 hall
    exact List.forall_mem_cons.2 ⟨nested_body h loops b hb, nested_bodies h loops bs hbs⟩

theorem nested_body (h : input.Plain) (loops : List OpenLoop) :
    (b : Branch) → (∀ d ∈ Content.walkBranch b, d.Plain input) →
      Line.Nested (input.linesAll loops b.body).value
  | .mk _ body, hb => nested_linesAll h loops body hb

end

end Jinja.TemplateInput

end JsxToJinja
