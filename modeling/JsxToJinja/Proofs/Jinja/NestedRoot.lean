import JsxToJinja.Proofs.Jinja.Generator
import JsxToJinja.Proofs.Jinja.NestedContent

/-! A whole template closes every block that it opens: the variables, the class statements, the start
tag of the root and what stands in it. -/
namespace JsxToJinja.Jinja
open JsxToJinja.Text JsxToJinja.Markup

/-- The texts of the options open no tag, and none arises where a line meets its indentation. -/
structure Options.Plain (options : Options) : Prop where
  indent : TagFree options.indent.toList
  apart : options.indent.toList.getLast? ≠ some '\x7b'
  classVar : TagFree options.classVar.toList

theorem Options.plain_standard : Options.Plain {} := ⟨by decide, by decide, by decide⟩

namespace TemplateInput

variable {input : TemplateInput}

/-! ### Before the root -/

theorem nested_headerLines (h : input.Plain) : Line.Nested input.headerLines := by
  have hname : TagFree input.name.toList := h.supplied _ (by simp [TemplateInput.texts])
  have himport : Balanced (statement "import 'components/_event_mixin.j2' as events").toList :=
    ⟨_, writes_statement rfl (by decide) (by decide), .simple⟩
  have hlast : TagFree "   Manual edits: wrap in MANUAL_START/MANUAL_END tags to preserve #\x7d".toList :=
    .of_notMem (by simp)
  refine .cons himport (.cons (.of_tagFree ?_) (.top (.of_tagFree hlast)))
  simp [tagFree_cons, hname]

/-- A default that is written holds no opening of a tag. -/
theorem tagFree_defaultValue? {a : Attribute} (ha : ∀ s ∈ a.texts, TagFree s.toList) :
    ∀ v ∈ defaultValue? a, TagFree (literal v).toList := by
  intro v hv
  refine tagFree_literal v fun s hs => ?_
  rw [defaultValue?] at hv
  split at hv
  · rename_i w hw
    have hdefault : a.default = some (.actual w) := by
      rw [Attribute.actualDefault?] at hw
      split at hw
      · rename_i hactual
        cases hw
        exact hactual
      · cases hw
    split at hv
    · cases hv
    · cases hv
      exact ha s (List.mem_append_right _ (by rw [hdefault]; exact hs))
  · split at hv
    · cases hv
      cases hs
    · split at hv
      · cases hv
      · split at hv
        · rename_i first hfirst
          cases hv
          cases List.mem_singleton.1 hs
          exact ha _ (List.mem_append_left _ (List.mem_cons_of_mem _ (List.mem_of_mem_head? hfirst)))
        · split at hv
          · cases hv
            cases hs
          · cases hv

/-- The statement for an attribute opens and closes nothing. -/
theorem balanced_variableLine {a : Attribute} (ha : ∀ s ∈ a.texts, TagFree s.toList) :
    Balanced (variableLine input.names a).text.toList := by
  have hname : TagFree a.name.toList := ha _ (by simp [Attribute.texts])
  have hvariable := input.tagFree_resolve hname
  have hset {value : String} (hvalue : TagFree value.toList) :
      Balanced (statement ("set " ++ input.names.resolve a.name ++ " = " ++ value)).toList := by
    have htext : "set " ++ input.names.resolve a.name ++ " = " ++ value =
        "set " ++ (input.names.resolve a.name ++ " = " ++ value) := by
      simp only [String.append_assoc]
    rw [htext]
    exact .of_set (by simp [tagFree_append, tagFree_cons, Apart, hvariable, hvalue])
  have hsource : TagFree (if input.names.isRenamed a.name then
      "_component_context[" ++ quote a.name ++ "]" else "_component_context." ++ a.name).toList := by
    split
    · simp [tagFree_append, tagFree_cons, tagFree_nil, Apart, tagFree_quote hname]
    · simp [tagFree_cons, hname]
  refine hset ?_
  split
  · rename_i v hv
    have hdefault := tagFree_defaultValue? ha v hv
    simp only [String.toList_append, tagFree_append, hsource, hdefault]
    simp [tagFree_cons, tagFree_nil, Apart]
  · exact hsource

theorem nested_variableLines (h : input.Plain) : Line.Nested input.variableLines := by
  have hall (attributes : List Attribute) (hattributes : ∀ a ∈ attributes, ∀ s ∈ a.texts, TagFree s.toList) :
      Line.Nested (attributes.map (variableLine input.names)) := by
    induction attributes with
    | nil => exact .nil
    | cons a rest ih =>
      obtain ⟨ha, hrest⟩ := List.forall_mem_cons.1 hattributes
      exact .cons (balanced_variableLine ha) (ih hrest)
  exact hall _ fun a ha => h.attribute (List.mem_of_mem_filter ha)

/-! ### The root -/

variable {options : Options}

/-- Every attribute of the root opens and closes its own conditions. -/
theorem balanced_rootAttributes (h : input.Plain) (hvar : TagFree options.classVar.toList)
    (tag : String) : ∀ a ∈ input.rootAttributes options tag, Balanced a.toList := by
  have hroot := h.root
  simp only [RootElement.texts, List.forall_mem_append, List.forall_mem_cons,
    List.forall_mem_flatMap] at hroot
  obtain ⟨⟨⟨-, hstatic⟩, hconditional⟩, -⟩ := hroot
  have hname : TagFree input.name.toList := h.supplied _ (by simp [TemplateInput.texts])
  have hclasses : TagFree (options.classVar ++ " | join(' ')").toList := by
    simp [tagFree_append, tagFree_cons, tagFree_nil, Apart, hvar]
  have hclass : Balanced (attributeText "class" (output (options.classVar ++ " | join(' ')"))).toList :=
    balanced_attributeText (by decide) (Piece.output hclasses).balanced
  have hmarker : Balanced (attributeText "data-roos-component" input.name).toList :=
    balanced_attributeText (by decide) (.of_tagFree hname)
  have hforwarded {a : Attribute} (ha : a ∈ input.attributes) {html : String}
      (hhtml : rootAttributeNames.contains html = true) : Balanced (input.forwardedText a html).toList := by
    have hvariable := input.tagFree_resolve
      (h.attribute ha a.name (by simp [Attribute.texts]))
    have hknown : ∀ html ∈ rootAttributeNames, TagFree html.toList := by decide
    have hfree := hknown html (List.contains_iff_mem.1 hhtml)
    rw [forwardedText]
    split
    · exact (Piece.guarded hvariable (.of_tagFree hfree)).balanced
    · exact balanced_attributeText hfree (Piece.output hvariable).balanced
  simp only [rootAttributes, List.forall_mem_append, List.forall_mem_cons, List.forall_mem_map]
  refine ⟨⟨⟨⟨⟨⟨hclass, hmarker, by simp⟩, ?_⟩, ?_⟩, ?_⟩, ?_⟩, (Piece.output (by decide)).balanced, by simp⟩
  · intro a ha
    obtain ⟨hkey, hvalue, -⟩ := hstatic a (List.mem_of_mem_filter ha)
    exact balanced_escaped hkey hvalue
  · intro c hc
    obtain ⟨hcondition, hkey, hvalue, -⟩ := hconditional c hc
    have hcode : c.condition ∈ input.codes :=
      List.mem_append_left _ (List.mem_append_right _ (List.mem_map_of_mem hc))
    exact (Piece.guarded (h.jinja hcode hcondition) (balanced_escaped hkey hvalue)).balanced
  · intro f hf
    obtain ⟨hmem, hhtml⟩ := List.mem_filter.1 hf
    obtain ⟨a, ha, rfl⟩ := List.mem_map.1 hmem
    exact hforwarded ha hhtml
  · exact fun p hp => (piece_passText h (List.mem_of_mem_filter hp)).balanced

private theorem nested_closeLast {attributes : List String} (h : ∀ a ∈ attributes, Balanced a.toList) :
    Line.Nested ((closeLast attributes).map Line.top) := by
  induction attributes with
  | nil => exact .nil
  | cons a rest ih =>
    obtain ⟨ha, hrest⟩ := List.forall_mem_cons.1 h
    cases rest with
    | nil =>
      refine .top ?_
      rw [String.toList_append]
      exact ha.append_piece (.cons .nil (by decide))
    | cons b rest => exact .cons ha (ih hrest)

theorem nested_bodyLines (h : input.Plain) (hcustom : input.customContent = none)
    (hbranches : ∀ c ∈ Content.walkAll input.content, c.branchesInOrder = true) :
    Line.Nested input.bodyLines.value := by
  rw [bodyLines, hcustom]
  dsimp only
  split
  · exact .top (.of_tagFree (by decide))
  · exact nested_linesAll h [] input.content fun c hc => h.content hc (hbranches c hc)

private theorem nested_inWrappers {wrappers : List Wrapper}
    (hwrappers : ∀ w ∈ wrappers, ∀ s ∈ w.texts, TagFree s.toList) {element : List Line}
    (h : Line.Nested element) : Line.Nested (wrappers.foldr inWrapper element) := by
  induction wrappers with
  | nil => exact h
  | cons w rest ih =>
    obtain ⟨hw, hrest⟩ := List.forall_mem_cons.1 hwrappers
    exact nested_inWrapper hw (ih hrest)

private theorem nested_rootElement {tag : String} (htag : TagFree tag.toList)
    {attributes : List String} (hattributes : ∀ a ∈ attributes, Balanced a.toList)
    {body : List Line} (hbody : Line.Nested body) (isVoid : Bool) : Line.Nested (.top ("<" ++ tag) ::
      Line.deeper ((closeLast attributes).map Line.top ++ body) ++
        (if isVoid then [] else [closing tag])) := by
  have hopening : Balanced ("<" ++ tag).toList := by
    rw [String.toList_append]
    exact (Balanced.of_tagFree htag).cons (by decide)
  refine (Line.Nested.cons hopening ((nested_closeLast hattributes).append hbody).deeper).append ?_
  split
  · exact .nil
  · exact nested_closing htag

/-- The lines of the root nest: tag, wrappers and content. -/
theorem nested_rootLines (h : input.Plain) (hvar : TagFree options.classVar.toList)
    (hcustom : input.customContent = none)
    (hbranches : ∀ c ∈ Content.walkAll input.content, c.branchesInOrder = true) :
    Line.Nested (input.rootLines options).value := by
  have hbody := nested_bodyLines h hcustom hbranches
  have hroot := h.root
  simp only [RootElement.texts, List.forall_mem_append, List.forall_mem_cons,
    List.forall_mem_flatMap] at hroot
  obtain ⟨⟨⟨htag, -⟩, -⟩, hwrappers⟩ := hroot
  rw [rootLines]
  cases hkind : input.root.tag with
  | fixed tag =>
    rw [hkind] at htag
    have hattributes := balanced_rootAttributes h hvar tag
    dsimp only
    split
    · simp only [Reviewed.value_bind, Reviewed.value_pure, List.nil_append]
      exact nested_inWrappers hwrappers (nested_rootElement htag hattributes .nil true)
    · simp only [Reviewed.value_bind, Reviewed.value_pure, List.nil_append]
      exact nested_inWrappers hwrappers (nested_rootElement htag hattributes hbody false)
  | dynamic code =>
    rw [hkind] at htag
    have hcodes : code ∈ input.tagCodes := by simp [tagCodes, hkind]
    have hexpression : TagFree ((templateLiteral? input.names code).getD (input.jinja code)).toList := by
      cases hliteral : templateLiteral? input.names code with
      | none => exact h.jinja (List.mem_append_left _ (List.mem_append_left _ hcodes)) htag
      | some text =>
        have hunfolded : text ∈ input.tagCodes.filterMap (templateLiteral? input.names) :=
          List.mem_filterMap.2 ⟨code, hcodes, hliteral⟩
        exact h.unfolded _ (List.mem_append_left _ (List.mem_append_right _ hunfolded))
    have hset : "set tag_name = " ++ (templateLiteral? input.names code).getD (input.jinja code) =
        "set " ++ ("tag_name = " ++ (templateLiteral? input.names code).getD (input.jinja code)) := by
      rw [← String.append_assoc]
      rfl
    have hsetup : Line.Nested [.top (statement ("set tag_name = " ++
        (templateLiteral? input.names code).getD (input.jinja code)))] := by
      rw [hset]
      exact .top (.of_set (by simp [tagFree_cons, hexpression]))
    simp only [Reviewed.value_bind, Reviewed.value_pure, Bool.false_eq_true, if_false]
    exact hsetup.append (nested_inWrappers hwrappers
      (nested_rootElement (by decide) (balanced_rootAttributes h hvar _) hbody false))

/-! ### The whole template -/

/-- The tags of a template nest, when no string in it opens a tag. -/
theorem wellNested_compile_of_plain (h : input.Plain) (hclasses : input.classes.Plain)
    (hcustom : input.customContent = none)
    (hbranches : ∀ c ∈ Content.walkAll input.content, c.branchesInOrder = true)
    (hoptions : options.Plain) : WellNested (input.compile options).value.toList := by
  have hlines := (((nested_headerLines h).append (nested_variableLines h)).append
    (ClassList.nested_lines hoptions.classVar hclasses)).append
      (nested_rootLines h hoptions.classVar hcustom hbranches)
  rw [WellNested, compile]
  dsimp only
  rw [Line.tags_renderAll hoptions.indent hoptions.apart]
  exact hlines []

/-- Whatever was added to the class list and however the content is nested, the tags of the template
nest, and the generator that writes it statement by statement ends at the margin with no open loop. -/
theorem compile_closes_blocks (h : input.Plain) (hclasses : input.classes.Built)
    (hcustom : input.customContent = none)
    (hbranches : ∀ c ∈ Content.walkAll input.content, c.branchesInOrder = true)
    (hoptions : options.Plain) :
    WellNested (input.compile options).value.toList ∧
      (Generator.run input options).page.text = (input.compile options).value ∧
      (Generator.run input options).page.depth = 0 ∧ (Generator.run input options).loops = [] := by
  have hnested := wellNested_compile_of_plain h hclasses.plain hcustom hbranches hoptions
  rw [Generator.run_eq]
  exact ⟨hnested, rfl, rfl, rfl⟩

def tabs : TemplateInput :=
  { name := "tabs"
    classes := ({} : ClassList).addRules (.ofNames [])
      [⟨"size", .otherwise, "wide", "", some "size"⟩,
        ⟨"size", .equals (.str "sm"), "narrow", "size === 'sm'", some "size"⟩]
    content := [.branches [
      .mk (some "open") [.arrayMap { array := "items", itemVar := "item", indexVar := some "i" }
        [.element { name := "li" } [.reference "item" none, .unsupported "f(item)"]]],
      .mk none [.conditional "!hidden" [.literal "No items"]]]] }

theorem tabs_compile_closes_blocks :
    tabs.Plain ∧ tabs.classes.Built ∧
      (∀ c ∈ Content.walkAll tabs.content, c.branchesInOrder = true) ∧
      WellNested (tabs.compile {}).value.toList ∧
      (Generator.run tabs {}).page.text = (tabs.compile {}).value ∧
      (Generator.run tabs {}).page.depth = 0 ∧ (Generator.run tabs {}).loops = [] := by
  have hplain : tabs.Plain := ⟨by decide, by decide⟩
  have hbuilt : tabs.classes.Built := by
    refine .addRules [] .empty (List.forall_mem_cons.2 ⟨⟨by decide, by decide, trivial⟩,
      List.forall_mem_singleton.2 ⟨by decide, by decide, ?_⟩⟩)
    exact List.forall_mem_singleton.2 (by decide)
  have hbranches : ∀ c ∈ Content.walkAll tabs.content, c.branchesInOrder = true := by
    decide
  exact ⟨hplain, hbuilt, hbranches,
    compile_closes_blocks hplain hbuilt rfl hbranches Options.plain_standard⟩

def escapedClass : TemplateInput :=
  { content := [.element ⟨"p", [⟨"className", .expression "'\x7b\\% if x %\x7d'"⟩], []⟩ []] }

/-- A backslash keeps the brace and the percent sign apart in the input, but not in the template. -/
theorem escapedClass_opens_block :
    (∀ s ∈ escapedClass.texts, TagFree s.toList) ∧ escapedClass.classes.Built ∧
      escapedClass.customContent = none ∧
      (∀ c ∈ Content.walkAll escapedClass.content, c.branchesInOrder = true) ∧
      ¬WellNested (escapedClass.compile {}).value.toList := by
  refine ⟨by decide, .empty, rfl, by decide, ?_⟩
  rw [WellNested, compile, Line.tags_renderAll Options.plain_standard.indent
    Options.plain_standard.apart]
  decide

end TemplateInput

end JsxToJinja.Jinja
