import JsxToJinja.Proofs.Jinja.SuppliedTexts

/-! Markup and outputs on one line close the blocks that they open. -/
namespace JsxToJinja.Jinja
open JsxToJinja.Text JsxToJinja.Markup

theorem Piece.blank {s : String} (h : Balanced s.toList) : Piece (" " ++ s).toList := by
  rw [String.toList_append]
  exact .cons h (by decide)

theorem tagFree_ofList {t : List Char} (h : TagFree t) : TagFree (String.ofList t).toList := by
  rwa [String.toList_ofList]

namespace TemplateInput

/-! ### Attributes -/

theorem tagFree_escapeAttribute {value : String} (h : TagFree value.toList) :
    TagFree (escapeAttribute value).toList := by
  refine tagFree_ofList (h.flatMap fun c _ => ?_)
  split
  · exact .inr (by decide)
  · split
    · exact .inr (by decide)
    · exact .inl rfl

/-- An attribute is balanced when its value is. -/
theorem balanced_attributeText {name value : String} (hname : TagFree name.toList)
    (hvalue : Balanced value.toList) : Balanced (attributeText name value).toList := by
  have htext : (attributeText name value).toList =
      name.toList ++ '=' :: '\x22' :: (value.toList ++ ['\x22']) := by
    simp [attributeText]
  rw [htext]
  exact (Balanced.of_tagFree hname).append_cons
    (.cons (hvalue.append_cons .nil (by decide)) (by decide)) (by decide)

theorem balanced_escaped {name value : String} (hname : TagFree name.toList)
    (hvalue : TagFree value.toList) : Balanced (attributeText name (escapeAttribute value)).toList :=
  balanced_attributeText hname (.of_tagFree (tagFree_escapeAttribute hvalue))

theorem piece_classText {classes : List String} (h : ∀ c ∈ classes, TagFree c.toList) :
    Piece (classText classes).toList := by
  rw [classText]
  split
  · exact .nil
  · exact .blank (balanced_attributeText (by decide) (.intercalate fun c hc => .of_tagFree (h c hc)))

theorem tagFree_htmlName {name : String} (h : TagFree name.toList) : TagFree (htmlName name).toList := by
  rw [htmlName.eq_def]
  split
  · decide
  · decide
  · decide
  · decide
  · exact h

variable {input : TemplateInput}

theorem piece_passText (h : input.Plain) {p : PassThrough} (hp : p ∈ input.passThrough) :
    Piece (input.passText p).toList := by
  obtain ⟨hname, htarget⟩ := h.passThrough hp
  have hvalue := input.tagFree_resolve hname
  exact .guarded hvalue (balanced_attributeText htarget (Piece.output hvalue).balanced)

/-! ### Class expressions -/

/-- A balanced text that is empty or ends in a brace that closes. -/
structure Closed (t : List Char) : Prop where
  piece : Piece t
  last : ∀ c ∈ t.getLast?, c = '\x7d'

namespace Closed

theorem nil : Closed [] := ⟨.nil, by simp⟩

theorem append {a b : List Char} (ha : Closed a) (hb : Closed b) : Closed (a ++ b) := by
  refine ⟨ha.piece.append hb.piece, fun c hc => ?_⟩
  rw [List.getLast?_append] at hc
  cases hlast : b.getLast? with
  | none =>
    rw [hlast] at hc
    exact ha.last c hc
  | some d =>
    rw [hlast] at hc
    cases hc
    exact hb.last _ hlast

theorem join {texts : List String} (h : ∀ s ∈ texts, Closed s.toList) :
    Closed (String.join texts).toList := by
  induction texts with
  | nil => exact nil
  | cons s rest ih =>
    obtain ⟨hs, hrest⟩ := List.forall_mem_cons.1 h
    rw [String.join_cons, String.toList_append]
    exact hs.append (ih hrest)

theorem guarded {condition text : String} (hc : TagFree condition.toList) (ht : Balanced text.toList) :
    Closed (guarded condition text).toList := by
  refine ⟨.guarded hc ht, fun c hlast => ?_⟩
  rw [Jinja.guarded, String.toList_append, List.getLast?_append, statement_last] at hlast
  cases hlast
  rfl

theorem output {code : String} (h : TagFree code.toList) : Closed (" " ++ output code).toList := by
  refine ⟨.blank (Piece.output h).balanced, fun c hlast => ?_⟩
  have hbrace : (" " ++ Jinja.output code).toList.getLast? = some '\x7d' := by
    simp [Jinja.output, List.getLast?_cons]
  rw [hbrace] at hlast
  cases hlast
  rfl

/-- Blanks around a text can go, when what is closed follows it. -/
theorem trim {a b : List Char} (ha : TagFree a) (hb : Closed b) : Balanced (trim (a ++ b)) := by
  cases hlast : b.getLast? with
  | none =>
    rw [List.getLast?_eq_none_iff] at hlast
    rw [hlast, List.append_nil]
    exact .of_tagFree ha.trim
  | some c =>
    obtain rfl := hb.last c hlast
    have hend : (a ++ b).getLast? = some '\x7d' := by simp [List.getLast?_append, hlast]
    have hstart : (trimStart (a ++ b)).getLast? = some '\x7d' := by
      rw [← List.takeWhile_append_dropWhile (p := isBlank) (l := a ++ b), List.getLast?_append] at hend
      cases hkept : ((a ++ b).dropWhile isBlank).getLast? with
      | some c =>
        rw [hkept] at hend
        exact hkept.trans hend
      | none =>
        rw [hkept] at hend
        have hblank := List.all_eq_true.1 List.all_takeWhile _ (List.mem_of_getLast? hend)
        exact absurd hblank (by decide)
    obtain ⟨t, ht⟩ := List.getLast?_eq_some_iff.1 hstart
    have htrim : Text.trim (a ++ b) = trimStart (a ++ b) := by
      rw [Text.trim, ht, trimEnd, List.reverse_append, List.reverse_singleton, List.singleton_append,
        List.dropWhile_cons, if_neg (by decide)]
      simp
    rw [htrim]
    exact ((Balanced.of_tagFree ha).append_piece hb.piece).trimStart

end Closed

private theorem tagFree_notIn {name : String} (hname : TagFree name.toList) {values : List String}
    (h : ∀ s ∈ values, TagFree s.toList) :
    TagFree (name ++ " not in [" ++ ", ".intercalate values ++ "]").toList := by
  have hvalues : TagFree ([',', ' '].intercalate (values.map String.toList)) :=
    Firm.tagFree_intercalate (by decide) (List.forall_mem_map.2 h)
  simp [tagFree_append, tagFree_cons, tagFree_nil, Apart, hname, hvalues]

private theorem closed_ruleText {rules : List ClassRule} {r : ClassRule} (hr : r ∈ rules)
    (hrules : ∀ r ∈ rules, TagFree r.prop.toList ∧ TagFree r.cssClass.toList ∧
      ∀ s ∈ r.trigger.written input.names, TagFree s.toList) :
    Closed (input.ruleText rules r).toList := by
  obtain ⟨hprop, hclass, htrigger⟩ := hrules r hr
  have hname := input.tagFree_resolve hprop
  rw [ruleText]
  dsimp only
  split
  · rename_i c hc
    refine .guarded ?_ (Piece.blank (.of_tagFree hclass)).balanced
    split at hc
    · cases hc
      refine tagFree_notIn hname fun s hs => ?_
      obtain ⟨other, hother, hs⟩ := List.mem_filterMap.1 hs
      have hwritten := (hrules other (List.mem_of_mem_filter hother)).2.2
      split at hs
      · rename_i v hv
        cases hs
        rw [hv] at hwritten
        exact tagFree_operand hwritten
      · cases hs
    · exact ClassList.tagFree_conditionFor? input.names hname _ htrigger c hc
  · exact .nil

/-- The classes of a plain element: text, outputs, and what stands under conditions. -/
theorem balanced_inlineClass {code : String} (hcode : TagFree (input.jinja code).toList)
    (h : ∀ s ∈ input.classTexts code, TagFree s.toList) : Balanced (input.inlineClass code).toList := by
  rw [inlineClass]
  rw [classTexts] at h
  split
  · rename_i classes hliteral
    rw [hliteral] at h
    exact .of_tagFree (h _ (List.mem_singleton_self _))
  · rename_i hliteral
    rw [hliteral] at h
    generalize (ClassExpression.extract input.attributes code.toList).expandTemplates
      input.attributes = e at h ⊢
    dsimp only at h ⊢
    split
    · exact (Piece.output hcode).balanced
    · simp only [List.forall_mem_append, List.forall_mem_flatMap, List.forall_mem_cons,
        List.forall_mem_map] at h
      obtain ⟨⟨⟨hbase, hrules⟩, htemplates⟩, hcomputed⟩ := h
      have hclasses : TagFree (" ".intercalate e.base).toList := by
        rw [String.toList_intercalate]
        exact Firm.tagFree_intercalate (by decide) (List.forall_mem_map.2 hbase)
      have hruleTexts : Closed (String.join (e.rules.map (input.ruleText e.rules))).toList :=
        .join (List.forall_mem_map.2 fun r hr => closed_ruleText hr hrules)
      have htemplateTexts : Closed (String.join (e.templates.map input.templateText)).toList := by
        refine .join (List.forall_mem_map.2 fun t ht => ?_)
        obtain ⟨hvalue, hguard⟩ := htemplates t ht
        rw [templateText]
        split
        · rename_i g hg
          rw [hg] at hguard
          exact .guarded (hguard _ (List.mem_singleton_self _)) (Closed.output hvalue).piece.balanced
        · exact .output hvalue
      have hcomputedTexts : Closed (String.join (e.computed.map (input.computedText))).toList :=
        .join (List.forall_mem_map.2 fun c hc =>
          .guarded (hcomputed c hc) (Closed.output (hcomputed c hc)).piece.balanced)
      rw [String.toList_ofList, String.append_assoc, String.append_assoc, String.toList_append,
        String.toList_append, String.toList_append]
      exact Closed.trim hclasses (hruleTexts.append (htemplateTexts.append hcomputedTexts))

/-! ### Elements -/

/-- One attribute of a plain element. -/
theorem piece_propText {u : Usage} {children : List Content}
    (hu : (Content.element u children).Plain input) {p : Property} (hp : p ∈ u.props) :
    Piece (input.propText p).toList := by
  have hown : ∀ s ∈ p.texts, TagFree s.toList := fun s hs =>
    hu.texts s (List.mem_append_right _ (List.mem_flatMap.2 ⟨p, hp, hs⟩))
  have hname : TagFree (htmlName p.name).toList :=
    tagFree_htmlName (hown _ (by simp [Property.texts]))
  rw [propText]
  split
  · rename_i value hvalue
    exact .blank (balanced_escaped hname (hown value (by simp [Property.texts, hvalue])))
  · exact .blank (.of_tagFree hname)
  · rename_i code hvalue
    have hcodes : code ∈ p.codes := by simp [Property.codes, hvalue]
    have hcode := hu.codes code (List.mem_flatMap.2 ⟨p, hp, hcodes⟩)
    split
    · rename_i hclass
      have hclassCode : code ∈ (Content.element u children).classCodes :=
        List.mem_flatMap.2 ⟨p, hp, by rwa [Property.classCodes, if_pos hclass]⟩
      exact .blank (balanced_attributeText (by decide)
        (balanced_inlineClass hcode (hu.classes code hclassCode)))
    · split
      · exact .nil
      · split
        · exact .blank (Piece.guarded hcode (.of_tagFree hname)).balanced
        · exact .blank (balanced_attributeText hname (Piece.output hcode).balanced)

theorem piece_elementAttributes (h : input.Plain) {u : Usage} {children : List Content}
    (hu : (Content.element u children).Plain input) : Piece (input.elementAttributes u).toList := by
  rw [elementAttributes, String.toList_append]
  refine (Piece.join ?_).append (.join ?_)
  · exact List.forall_mem_map.2 fun p hp => piece_propText hu (List.mem_of_mem_filter hp)
  · exact List.forall_mem_map.2 fun p hp =>
      .blank (piece_passText h (List.mem_of_mem_filter hp)).balanced

theorem piece_startTag {name attributes : String} (hname : TagFree name.toList)
    (hattributes : Piece attributes.toList) : Piece ("<" ++ name ++ attributes).toList := by
  have htext : ("<" ++ name ++ attributes).toList = '<' :: (name.toList ++ attributes.toList) := by simp
  rw [htext]
  exact .cons ((Balanced.of_tagFree hname).append_piece hattributes) (by decide)

theorem piece_opening {name attributes : String} (hname : TagFree name.toList)
    (hattributes : Piece attributes.toList) : Piece ("<" ++ name ++ attributes ++ ">").toList := by
  rw [String.toList_append]
  exact (piece_startTag hname hattributes).append (.cons .nil (by decide))

theorem balanced_closing {tag : String} (h : TagFree tag.toList) : Balanced (closing tag).text.toList := by
  refine .of_tagFree ?_
  simp [closing, Line.top, tagFree_cons, tagFree_append, tagFree_nil, Apart, h]

/-- An element on one line. -/
theorem balanced_element {opening text name : String} (hopening : Piece opening.toList)
    (hlast : opening.toList.getLast? = some '>') (htext : Balanced text.toList)
    (hname : TagFree name.toList) :
    Balanced (opening ++ text ++ "</" ++ name ++ ">").toList := by
  have hwhole : (opening ++ text ++ "</" ++ name ++ ">").toList =
      (opening.toList ++ text.toList) ++ '<' :: '/' :: (name.toList ++ ['>']) := by simp
  rw [hwhole]
  exact (hopening.balanced.append htext (.of_last (by simp [hlast]))).append_cons
    (.cons ((Balanced.of_tagFree hname).append_cons .nil (by decide)) (by decide)) (by decide)

/-! ### Outputs -/

theorem balanced_outputOf {name : String} (h : TagFree (input.jinja name).toList) :
    Balanced (input.outputOf name).toList := by
  rw [outputOf]
  split
  · refine (Piece.output ?_).balanced
    simp [tagFree_append, tagFree_cons, tagFree_nil, Apart, h]
  · exact (Piece.output h).balanced

private theorem tagFree_chainCode {links : List String} (h : ∀ link ∈ links, TagFree link.toList) :
    TagFree (chainCode links).toList := by
  induction links with
  | nil => decide
  | cons link rest ih =>
    obtain ⟨hlink, hrest⟩ := List.forall_mem_cons.1 h
    cases rest with
    | nil => exact hlink
    | cons next rest =>
      rw [chainCode]
      · simp [tagFree_append, tagFree_cons, Apart, hlink, ih hrest]
      · simp

/-- The output of a chain of fallbacks closes the tags it opens. -/
theorem balanced_fallbackText {chain : List String}
    (h : ∀ link ∈ chain, TagFree (input.jinja link).toList) :
    Balanced (input.fallbackText chain).toList := by
  have hchain := tagFree_chainCode (List.forall_mem_map.2 h)
  rw [fallbackText]
  split
  · exact .nil
  · split
    · refine (Piece.output ?_).balanced
      simp [tagFree_append, tagFree_cons, tagFree_nil, Apart, hchain]
    · exact (Piece.output hchain).balanced

/-- A side of a conditional is code without tags, when it is an expression at all. -/
theorem tagFree_valueText? {c : Content} (hc : c.Plain input) :
    ∀ text ∈ input.valueText? c, TagFree text.toList := by
  intro text htext
  cases c with
  | literal t =>
    obtain rfl := Option.some.inj htext
    exact tagFree_quote (tagFree_ofList (hc.texts t (List.mem_singleton_self _)).trim)
  | reference name resolved =>
    cases resolved with
    | none =>
      obtain rfl := Option.some.inj htext
      exact hc.codes name (List.mem_singleton_self _)
    | some r => cases htext
  | _ => cases htext

private theorem mem_of_mapM {parts : List (Option String)} {texts : List String}
    (h : parts.mapM id = some texts) : ∀ s ∈ texts, some s ∈ parts := by
  induction parts generalizing texts with
  | nil =>
    cases h
    exact List.forall_mem_nil _
  | cons part rest ih =>
    rw [List.mapM_cons] at h
    obtain ⟨text, hpart, h⟩ := Option.bind_eq_some_iff.1 h
    obtain ⟨others, hrest, h⟩ := Option.bind_eq_some_iff.1 h
    cases h
    exact List.forall_mem_cons.2
      ⟨hpart ▸ List.mem_cons_self, fun s hs => List.mem_cons_of_mem _ (ih hrest s hs)⟩

theorem balanced_joinInline {parts : List (Option String)}
    (h : ∀ part ∈ parts, ∀ text ∈ part, Balanced text.toList) :
    ∀ text ∈ joinInline parts, Balanced text.toList := by
  intro text htext
  obtain ⟨texts, hall, rfl⟩ := Option.map_eq_some_iff.1 htext
  exact .intercalate fun s hs => h _ (mem_of_mapM hall s (List.mem_of_mem_filter hs)) s rfl

end TemplateInput

end JsxToJinja.Jinja
