import JsxToJinja.Proofs.Jinja.BalancedLines
import JsxToJinja.Proofs.Jinja.Chains
import JsxToJinja.Proofs.Jinja.PlainCode

/-! The statements that collect the classes of the root: whatever was added to the list, they close
the blocks that they open. -/
namespace JsxToJinja
open JsxToJinja.Text JsxToJinja.Jinja

/-! ### Texts that classes are made from -/

/-- Code for which no tag is opened. A template literal may unfold to anything, so its expression
counts. -/
def NameMap.Plain (names : NameMap) (code : String) : Prop :=
  TagFree code.toList ∧ ('\x60' ∈ code.toList → TagFree (translate names code).toList)

theorem NameMap.Plain.translate {names : NameMap} (hnames : names.Firm) {code : String}
    (h : names.Plain code) : TagFree (translate names code).toList := by
  by_cases htick : '\x60' ∈ code.toList
  · exact h.2 htick
  · exact tagFree_translate hnames h.1 htick

/-- A template literal for which no tag is opened. -/
def NameMap.PlainLiteral (names : NameMap) (literal : String) : Prop :=
  TagFree literal.toList ∧ ∀ expression ∈ templateLiteral? names literal, TagFree expression.toList

def Trigger.Plain (names : NameMap) : Trigger → Prop
  | .equals v => ∀ s ∈ v.texts, TagFree s.toList
  | .condition code => names.Plain code
  | .template pattern _ guard =>
    names.PlainLiteral ("\x60" ++ pattern ++ "\x60") ∧ ∀ g ∈ guard, names.Plain g
  | _ => True

def Trigger.written (names : NameMap) : Trigger → List String
  | .equals v => v.texts
  | .condition code => [translate names code]
  | _ => []

theorem Trigger.Plain.written {names : NameMap} (hnames : names.Firm) {trigger : Trigger}
    (h : trigger.Plain names) : ∀ s ∈ trigger.written names, TagFree s.toList := by
  cases trigger with
  | equals v => exact h
  | condition code => exact List.forall_mem_singleton.2 (h.translate hnames)
  | _ => exact List.forall_mem_nil _

structure ClassRule.Plain (names : NameMap) (r : ClassRule) : Prop where
  prop : TagFree r.prop.toList
  cssClass : TagFree r.cssClass.toList
  trigger : r.trigger.Plain names

structure Extraction.Plain (names : NameMap) (e : Extraction) : Prop where
  base : ∀ c ∈ e.base, TagFree c.toList
  rules : ∀ r ∈ e.rules, r.Plain names
  computed : ∀ code ∈ e.computed, names.Plain code
  templates : ∀ t ∈ e.templates, names.PlainLiteral t.1 ∧ ∀ g ∈ t.2, names.Plain g

namespace Jinja

/-! ### Lists under construction -/

/-- Class lists that come about by additions of texts without an opening of a tag. -/
inductive ClassList.Built : ClassList → Prop
  | empty : Built {}
  | addBase {cl : ClassList} {classes : List String} (h : Built cl)
      (hclasses : ∀ c ∈ classes, TagFree c.toList) : Built (cl.addBase classes)
  | addConditional {cl : ClassList} {cssClass condition : String} (h : Built cl)
      (hclass : TagFree cssClass.toList) (hcondition : TagFree condition.toList) :
      Built (cl.addConditional cssClass condition)
  | addBoolean {cl : ClassList} {variableName cssClass : String} (negate : Bool) (h : Built cl)
      (hname : TagFree variableName.toList) (hclass : TagFree cssClass.toList) :
      Built (cl.addBoolean variableName cssClass negate)
  | addRules {cl : ClassList} {rules : List ClassRule} (known : List String) (h : Built cl)
      (hrules : ∀ r ∈ rules, r.Plain (.ofNames known)) : Built (cl.addRules (.ofNames known) rules)
  | addComputed {cl : ClassList} {expression : String} (h : Built cl)
      (hexpression : TagFree expression.toList) : Built (cl.addComputed expression)
  | addTemplate {cl : ClassList} {literal : String} {guard : Option String} (known : List String)
      (h : Built cl) (hliteral : (NameMap.ofNames known).PlainLiteral literal)
      (hguard : ∀ g ∈ guard, TagFree g.toList) :
      Built (cl.addTemplate (.ofNames known) literal guard)

/-- What the class extractors find is added in the same way. -/
theorem ClassList.Built.ofExtraction {known : List String} {e : Extraction}
    (h : e.Plain (.ofNames known)) : Built (ofExtraction (.ofNames known) e) := by
  have hnames : (NameMap.ofNames known).Firm := NameMap.firm_ofNames known
  have hrules : Built ((({} : ClassList).addBase e.base).addRules (.ofNames known) e.rules) :=
    .addRules known (.addBase .empty h.base) h.rules
  have hcomputed (codes : List String) (hcodes : ∀ code ∈ codes, (NameMap.ofNames known).Plain code)
      (cl : ClassList) (hcl : Built cl) :
      Built (codes.foldl (fun cl c => cl.addComputed (translate (.ofNames known) c)) cl) := by
    induction codes generalizing cl with
    | nil => exact hcl
    | cons code rest ih =>
      exact ih (fun c hc => hcodes c (by simp [hc])) _
        (.addComputed hcl ((hcodes code (by simp)).translate hnames))
  have htemplates (ts : List (String × Option String))
      (hts : ∀ t ∈ ts, (NameMap.ofNames known).PlainLiteral t.1 ∧
        ∀ g ∈ t.2, (NameMap.ofNames known).Plain g) (cl : ClassList) (hcl : Built cl) :
      Built (ts.foldl (fun cl t =>
        cl.addTemplate (.ofNames known) t.1 (t.2.map (translate (.ofNames known)))) cl) := by
    induction ts generalizing cl with
    | nil => exact hcl
    | cons t rest ih =>
      obtain ⟨hliteral, hguard⟩ := hts t (by simp)
      refine ih (fun u hu => hts u (by simp [hu])) _ (.addTemplate known hcl hliteral ?_)
      intro g hg
      obtain ⟨code, hcode, rfl⟩ := Option.map_eq_some_iff.1 hg
      exact (hguard code hcode).translate hnames
  exact htemplates _ h.templates _ (hcomputed _ h.computed _ hrules)

/-! ### What every addition keeps -/

/-- Texts that open no tag, each condition once, and the arm without one last. -/
structure ClassArm.Chain (arms : List ClassArm) : Prop where
  condition : ∀ a ∈ arms, ∀ c ∈ a.condition, TagFree c.toList
  classes : ∀ a ∈ arms, ∀ c ∈ a.classes, TagFree c.toList
  distinct : (conditions arms).Nodup
  ordered : arms.Pairwise fun a _ => a.condition.isSome = true

def ClassEntry.Plain : ClassEntry → Prop
  | .guarded condition classes => TagFree condition.toList ∧ ∀ c ∈ classes, TagFree c.toList
  | .chain _ arms => ClassArm.Chain arms
  | .computed expression => TagFree expression.toList
  | .template expression guard => TagFree expression.toList ∧ ∀ g ∈ guard, TagFree g.toList

structure ClassList.Plain (cl : ClassList) : Prop where
  base : ∀ c ∈ cl.base, TagFree c.toList
  entries : ∀ e ∈ cl.entries, e.Plain

namespace ClassList

private theorem tagFree_appendNew {items more : List String} (h : ∀ c ∈ items, TagFree c.toList)
    (hmore : ∀ c ∈ more, TagFree c.toList) : ∀ c ∈ appendNew items more, TagFree c.toList := by
  intro c hc
  rcases mem_appendNew.1 hc with hc | hc
  · exact h c hc
  · exact hmore c hc

theorem Plain.addBase {cl : ClassList} (h : cl.Plain) {classes : List String}
    (hclasses : ∀ c ∈ classes, TagFree c.toList) : (cl.addBase classes).Plain :=
  ⟨tagFree_appendNew h.base hclasses, h.entries⟩

/-- Adding a class under a condition opens no tag inside a text of the list. -/
theorem Plain.addConditional {cl : ClassList} (h : cl.Plain) {cssClass condition : String}
    (hclass : TagFree cssClass.toList) (hcondition : TagFree condition.toList) :
    (cl.addConditional cssClass condition).Plain := by
  have hnew : ∀ c ∈ [cssClass], TagFree c.toList := by simpa using hclass
  have hinto (entries : List ClassEntry) (hentries : ∀ e ∈ entries, e.Plain) :
      ∀ e ∈ guardInto cssClass condition entries, e.Plain := by
    induction entries with
    | nil => exact List.forall_mem_singleton.2 ⟨hcondition, hnew⟩
    | cons e rest ih =>
      obtain ⟨he, hrest⟩ := List.forall_mem_cons.1 hentries
      rw [guardInto.eq_def]
      split
      · rename_i heq
        cases heq
      · rename_i c classes rest' heq
        cases heq
        split
        · exact List.forall_mem_cons.2 ⟨⟨he.1, tagFree_appendNew he.2 hnew⟩, hrest⟩
        · exact List.forall_mem_cons.2 ⟨he, ih hrest⟩
      · rename_i heq
        cases heq
        exact List.forall_mem_cons.2 ⟨he, ih hrest⟩
  exact ⟨h.base, hinto _ h.entries⟩

private theorem mem_armInto {arms : List ClassArm} {k : Option String} {cssClass : String}
    (hk : ∀ c ∈ k, TagFree c.toList) (hclass : TagFree cssClass.toList)
    (h : ∀ a ∈ arms, (∀ c ∈ a.condition, TagFree c.toList) ∧ ∀ c ∈ a.classes, TagFree c.toList) :
    ∀ a ∈ armInto k cssClass arms,
      (∀ c ∈ a.condition, TagFree c.toList) ∧ ∀ c ∈ a.classes, TagFree c.toList := by
  have hnew : ∀ c ∈ [cssClass], TagFree c.toList := by simpa using hclass
  induction arms with
  | nil =>
    refine List.forall_mem_singleton.2 ⟨hk, ?_⟩
    dsimp only
    split
    · simp
    · exact hnew
  | cons a rest ih =>
    obtain ⟨ha, hrest⟩ := List.forall_mem_cons.1 h
    rw [armInto]
    split
    · refine List.forall_mem_cons.2 ⟨⟨ha.1, ?_⟩, hrest⟩
      dsimp only
      split
      · exact ha.2
      · exact tagFree_appendNew ha.2 hnew
    · exact List.forall_mem_cons.2 ⟨ha, ih hrest⟩

/-- Adding an arm opens no tag inside a text of the list. -/
theorem Plain.addArm {cl : ClassList} (h : cl.Plain) {name : String} {k : Option String}
    {cssClass : String} (hk : ∀ c ∈ k, TagFree c.toList) (hclass : TagFree cssClass.toList) :
    (cl.addArm name k cssClass).Plain := by
  have harms {arms : List ClassArm} (hchain : ClassArm.Chain arms) :
      ClassArm.Chain (fallbackLast (armInto k cssClass arms)) := by
    have hmem := mem_armInto hk hclass fun a ha => ⟨hchain.condition a ha, hchain.classes a ha⟩
    have hperm := fallbackLast_perm (armInto k cssClass arms)
    have hexclusive := Exclusive.addTo ⟨hchain.distinct, hchain.ordered⟩ (k, cssClass)
    exact ⟨fun a ha => (hmem a (hperm.mem_iff.1 ha)).1, fun a ha => (hmem a (hperm.mem_iff.1 ha)).2,
      hexclusive.distinct, hexclusive.ordered⟩
  have hfirst : ClassArm.Chain (armInto k cssClass []) := by
    have hmem := mem_armInto hk hclass (List.forall_mem_nil _)
    exact ⟨fun a ha => (hmem a ha).1, fun a ha => (hmem a ha).2, by simp [armInto, conditions],
      by simp [armInto]⟩
  have hinto (entries : List ClassEntry) (hentries : ∀ e ∈ entries, e.Plain) :
      ∀ e ∈ chainInto name k cssClass entries, e.Plain := by
    induction entries with
    | nil => exact List.forall_mem_singleton.2 hfirst
    | cons e rest ih =>
      obtain ⟨he, hrest⟩ := List.forall_mem_cons.1 hentries
      rw [chainInto.eq_def]
      split
      · rename_i heq
        cases heq
      · rename_i n arms rest' heq
        cases heq
        split
        · exact List.forall_mem_cons.2 ⟨harms he, hrest⟩
        · exact List.forall_mem_cons.2 ⟨he, ih hrest⟩
      · rename_i heq
        cases heq
        exact List.forall_mem_cons.2 ⟨he, ih hrest⟩
  exact ⟨h.base, hinto _ h.entries⟩

/-- Adding code opens no tag inside a text of the list. -/
theorem Plain.addComputed {cl : ClassList} (h : cl.Plain) {expression : String}
    (hexpression : TagFree expression.toList) : (cl.addComputed expression).Plain := by
  refine ⟨h.base, fun e he => ?_⟩
  rw [ClassList.addComputed, appendNew_cons, appendNew, List.foldl_nil] at he
  split at he
  · exact h.entries e he
  · rcases List.mem_append.1 he with he | he
    · exact h.entries e he
    · obtain rfl := List.mem_singleton.1 he
      exact hexpression

private theorem infix_unticked (s : String) : (unticked s).toList <:+: s.toList := by
  rw [unticked, String.toList_ofList, ← List.reverse_infix, List.reverse_reverse]
  refine (List.dropWhile_suffix _).isInfix.trans ?_
  rw [List.reverse_infix]
  exact (List.dropWhile_suffix _).isInfix

/-- Adding a template literal opens no tag inside a text of the list. -/
theorem Plain.addTemplate {cl : ClassList} (h : cl.Plain) {names : NameMap} {literal : String}
    {guard : Option String} (hliteral : names.PlainLiteral literal)
    (hguard : ∀ g ∈ guard, TagFree g.toList) : (cl.addTemplate names literal guard).Plain := by
  have hexpression :
      TagFree ((templateLiteral? names literal).getD (quote (unticked literal))).toList := by
    cases htext : templateLiteral? names literal with
    | none => exact tagFree_quote (hliteral.1.of_isInfix (infix_unticked literal))
    | some expression => exact hliteral.2 expression htext
  refine ⟨h.base, fun e he => ?_⟩
  rcases List.mem_append.1 he with he | he
  · exact h.entries e he
  · obtain rfl := List.mem_singleton.1 he
    exact ⟨hexpression, hguard⟩

/-- The condition of a trigger is made of its own texts and of the variable. -/
theorem tagFree_conditionFor? (names : NameMap) {variableName : String}
    (hname : TagFree variableName.toList) (trigger : Trigger)
    (htrigger : ∀ s ∈ trigger.written names, TagFree s.toList) :
    ∀ c ∈ conditionFor? names variableName trigger, TagFree c.toList := by
  rintro c hc
  cases trigger with
  | truthy =>
    cases hc
    exact hname
  | falsy =>
    cases hc
    simp [tagFree_cons, hname]
  | equals v =>
    cases hc
    have hv := tagFree_operand htrigger
    simp [tagFree_append, tagFree_cons, Apart, hname, hv]
  | condition code =>
    cases hc
    exact htrigger _ (List.mem_singleton_self _)
  | otherwise => cases hc
  | template => cases hc

/-- Rules add what their conditions and classes are made of. -/
theorem Plain.addRule {cl : ClassList} (h : cl.Plain) {names : NameMap} (hnames : names.Firm)
    {r : ClassRule} (hr : r.Plain names) : (addRule names cl r).Plain := by
  have hname := hnames.tagFree_resolve hr.prop
  have htrigger := hr.trigger
  rw [ClassList.addRule]
  split
  · rename_i v _ htext
    rw [htext] at htrigger
    refine h.addArm (fun c hc => ?_) hr.cssClass
    cases hc
    exact tagFree_conditionFor? names hname (.equals v) htrigger _ rfl
  · exact h.addArm (by simp) hr.cssClass
  · rename_i htext
    rw [htext] at htrigger
    refine h.addTemplate htrigger.1 fun g hg => ?_
    obtain ⟨code, hcode, rfl⟩ := Option.map_eq_some_iff.1 hg
    exact (htrigger.2 code hcode).translate hnames
  · split
    · rename_i c hc
      exact h.addConditional hr.cssClass
        (tagFree_conditionFor? names hname _ (htrigger.written hnames) c hc)
    · exact h

theorem Plain.addRules {cl : ClassList} (h : cl.Plain) {names : NameMap} (hnames : names.Firm)
    {rules : List ClassRule} (hrules : ∀ r ∈ rules, r.Plain names) : (cl.addRules names rules).Plain := by
  induction rules generalizing cl with
  | nil => exact h
  | cons r rest ih =>
    exact ih (h.addRule hnames (hrules r (by simp))) fun s hs => hrules s (by simp [hs])

/-- However a list of classes is built, no text in it opens a tag. -/
theorem Built.plain {cl : ClassList} (h : Built cl) : cl.Plain := by
  induction h with
  | empty => exact ⟨by simp, by simp⟩
  | addBase _ hclasses ih => exact ih.addBase hclasses
  | addConditional _ hclass hcondition ih => exact ih.addConditional hclass hcondition
  | addBoolean negate _ hname hclass ih =>
    refine ih.addConditional hclass ?_
    split
    · simp [tagFree_cons, hname]
    · exact hname
  | addRules known _ hrules ih => exact ih.addRules (NameMap.firm_ofNames known) hrules
  | addComputed _ hexpression ih => exact ih.addComputed hexpression
  | addTemplate known _ hliteral hguard ih => exact ih.addTemplate hliteral hguard

/-! ### The statements -/

private def armTags (classes : List String) : List Tag := if classes.isEmpty then [] else [.simple]

private theorem neutral_armTags (classes : List String) : Tag.Neutral (armTags classes) := by
  rw [armTags]
  split
  · exact .nil
  · exact .simple

section Statements

variable {variableName : String} (hvar : TagFree variableName.toList)

theorem tagFree_quotedList {classes : List String} (h : ∀ c ∈ classes, TagFree c.toList) :
    TagFree (quotedList classes).toList := by
  rw [quotedList, String.toList_intercalate, List.map_map]
  refine Firm.tagFree_intercalate (by decide) fun t ht => ?_
  obtain ⟨c, hc, rfl⟩ := List.mem_map.1 ht
  exact tagFree_quote (h c hc)

include hvar

theorem writes_append {items : String} (hitems : TagFree items.toList) :
    Writes [.simple] (append variableName items).toList := by
  have htext : append variableName items =
      statement ("set " ++ (variableName ++ " = " ++ variableName ++ " + [" ++ items ++ "]")) := by
    simp only [append, String.append_assoc]
  rw [htext]
  refine writes_set ?_
  simp [tagFree_append, tagFree_cons, tagFree_nil, Apart, hvar, hitems]

theorem balanced_append {items : String} (hitems : TagFree items.toList) :
    Balanced (append variableName items).toList := ⟨_, writes_append hvar hitems, .simple⟩

private theorem tags_armLines {opener : String} {tag : Tag} (hopener : Writes [tag] opener.toList)
    {classes : List String} (h : ∀ c ∈ classes, TagFree c.toList) :
    Line.tags (armLines variableName opener classes) = tag :: armTags classes := by
  rw [armLines, Line.tags_cons, Line.tags_cons, armTags, Line.top, hopener.tags_eq]
  split
  · simp only [Line.tags, List.flatMap_nil, List.append_nil]
    rfl
  · simp [(writes_append hvar (tagFree_quotedList h)).tags_eq, Line.tags]

private theorem tags_laterArms {arms : List ClassArm}
    (hconditions : ∀ a ∈ arms, ∀ c ∈ a.condition, TagFree c.toList)
    (hclasses : ∀ a ∈ arms, ∀ c ∈ a.classes, TagFree c.toList) :
    Line.tags (laterArms variableName arms) =
      Tag.arms (arms.map fun a => (a.condition.isSome, armTags a.classes)) := by
  induction arms with
  | nil =>
    rw [laterArms, Line.tags_cons, Line.top, writes_endif.tags_eq]
    rfl
  | cons a rest ih =>
    obtain ⟨hcondition, hrest⟩ := List.forall_mem_cons.1 hconditions
    obtain ⟨ha, hothers⟩ := List.forall_mem_cons.1 hclasses
    rw [laterArms, Line.tags_append, ih hrest hothers, List.map_cons, Tag.arms]
    cases hc : a.condition with
    | none => rw [tags_armLines hvar writes_else ha]; rfl
    | some c => rw [tags_armLines hvar (writes_elif (hcondition c hc)) ha]; rfl

/-- A chain is one conditional, and a fallback alone none. -/
theorem nested_chainLines {arms : List ClassArm} (h : ClassArm.Chain arms) :
    Line.Nested (chainLines variableName arms) := by
  rw [chainLines.eq_def]
  split
  · rename_i hfallback
    have hlines (some : List ClassArm) (hsome : ∀ a ∈ some, ∀ c ∈ a.classes, TagFree c.toList) :
        Line.Nested (some.map fun a => .top (append variableName (quotedList a.classes))) := by
      induction some with
      | nil => exact .nil
      | cons a rest ih =>
        obtain ⟨ha, hrest⟩ := List.forall_mem_cons.1 hsome
        exact .cons (balanced_append hvar (tagFree_quotedList ha)) (ih hrest)
    exact hlines _ fun a ha => h.classes a (List.mem_of_mem_filter ha)
  · rename_i hconditional
    cases arms with
    | nil => exact .nil
    | cons a rest =>
      obtain ⟨hcondition, hrest⟩ := List.forall_mem_cons.1 h.condition
      obtain ⟨ha, hothers⟩ := List.forall_mem_cons.1 h.classes
      obtain ⟨hfirst, hordered⟩ := List.pairwise_cons.1 h.ordered
      cases hc : a.condition with
      | none =>
        -- behind an arm without a condition there is no other
        refine absurd ?_ hconditional
        cases rest with
        | nil => simp [hc]
        | cons b _ => simpa [hc] using hfirst b (by simp)
      | some c =>
        have hcomplete : Tag.Complete (rest.map fun a => (a.condition.isSome, armTags a.classes)) :=
          List.pairwise_map.2 hordered
        have hneutral : ∀ arm ∈ rest.map fun a => (a.condition.isSome, armTags a.classes),
            Tag.Neutral arm.2 := by
          simpa using fun b : ClassArm => fun _ => neutral_armTags b.classes
        dsimp only
        rw [Line.Nested, hc]
        dsimp only
        rw [Line.tags_append, tags_armLines hvar (writes_if (hcondition c hc)) ha,
          tags_laterArms hvar hrest hothers]
        exact (neutral_armTags a.classes).conditional hneutral hcomplete

theorem nested_entryLines {e : ClassEntry} (h : e.Plain) :
    Line.Nested (entryLines variableName e) := by
  cases e with
  | guarded condition classes =>
    exact .top (Piece.guarded h.1 (balanced_append hvar (tagFree_quotedList h.2))).balanced
  | chain name arms => exact nested_chainLines hvar h
  | computed expression => exact .top (Piece.guarded h (balanced_append hvar h)).balanced
  | template expression guard =>
    cases guard with
    | none => exact .top (balanced_append hvar h.1)
    | some g => exact .top (Piece.guarded (h.2 g rfl) (balanced_append hvar h.1)).balanced

/-- The class statements close every block that they open. -/
theorem nested_lines {cl : ClassList} (h : cl.Plain) : Line.Nested (cl.lines variableName) := by
  have hentries (entries : List ClassEntry) (he : ∀ e ∈ entries, e.Plain) :
      Line.Nested (entries.flatMap (entryLines variableName)) := by
    induction entries with
    | nil => exact .nil
    | cons e rest ih =>
      obtain ⟨hfirst, hrest⟩ := List.forall_mem_cons.1 he
      rw [List.flatMap_cons]
      exact (nested_entryLines hvar hfirst).append (ih hrest)
  have htext : "set " ++ variableName ++ " = [" ++ quotedList cl.base ++ "]" =
      "set " ++ (variableName ++ " = [" ++ quotedList cl.base ++ "]") := by
    simp only [String.append_assoc]
  have hbase := tagFree_quotedList h.base
  rw [lines, htext]
  refine .cons (.of_set ?_) (hentries _ h.entries)
  simp [tagFree_append, tagFree_cons, tagFree_nil, Apart, hvar, hbase]

end Statements

end ClassList

end Jinja

end JsxToJinja
