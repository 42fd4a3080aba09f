import Mathlib.Data.List.Basic
import JsxToJinja.Jinja.Template

/-! A template written one statement at a time onto a page, whose depth goes up and down on the way,
with the loops that are open. What is written is the rendering of the lines. -/
namespace JsxToJinja.Jinja
open JsxToJinja.Text JsxToJinja.Markup

/-! ### Lines put onto a page -/

namespace Line

/-- The line so many levels deeper. Without text it stays at the margin. -/
def raised (levels : Nat) (l : Line) : Line :=
  if l.text.isEmpty then l else { l with depth := levels + l.depth }

theorem raised_zero (l : Line) : l.raised 0 = l := by
  simp [raised]

theorem raised_raised (levels more : Nat) (l : Line) :
    (l.raised more).raised levels = l.raised (levels + more) := by
  by_cases hempty : l.text = ""
  · simp [raised, hempty]
  · simp [raised, hempty, Nat.add_assoc]

theorem deeper_eq_raised (ls : List Line) : deeper ls = ls.map (raised 1) :=
  List.map_congr_left fun l _ => by rw [raised, Nat.add_comm 1]

end Line

namespace Page

/-- Adds lines below the depth of the page. -/
def put (p : Page) (ls : List Line) : Page :=
  p.add (Line.renderAll p.indent (ls.map (Line.raised p.depth)))

variable (p : Page)

theorem put_nil : p.put [] = p := by
  rw [put, add]
  exact congrArg _ String.append_empty

theorem put_append (first second : List Line) :
    p.put (first ++ second) = (p.put first).put second := by
  have hjoin : Line.renderAll p.indent ((first ++ second).map (Line.raised p.depth)) =
      Line.renderAll p.indent (first.map (Line.raised p.depth)) ++
        Line.renderAll p.indent (second.map (Line.raised p.depth)) := by
    simp [Line.renderAll]
  rw [put, hjoin, add, ← String.append_assoc]
  rfl

theorem put_top {text : String} (h : text ≠ "") : p.put [.top text] = p.line text := by
  simp [put, line, Line.top, Line.raised, Line.renderAll, h]

theorem put_blank : p.put [.top ""] = p.add "\n" := by
  simp [put, Line.top, Line.raised, Line.renderAll, Line.render]

/-- One level deeper and back again. -/
theorem put_deeper (ls : List Line) : p.put (Line.deeper ls) = (p.deeper.put ls).shallower := by
  have hraised : (Line.deeper ls).map (Line.raised p.depth) = ls.map (Line.raised p.deeper.depth) := by
    rw [Line.deeper_eq_raised, List.map_map]
    exact List.map_congr_left fun l _ => l.raised_raised p.depth 1
  rw [put, hraised]
  rfl

theorem put_ofText (text : String) : p.put (Line.ofText text) = p.lines text := by
  have hfold (ls : List Line) (hls : ∀ l ∈ ls, l = .top l.text) (p : Page) :
      p.put ls = ls.foldl (fun p l => if l.text.isEmpty then p.add "\n" else p.line l.text) p := by
    induction ls generalizing p with
    | nil => exact p.put_nil
    | cons l rest ih =>
      obtain ⟨hl, hrest⟩ := List.forall_mem_cons.1 hls
      have hfirst : p.put [l] = if l.text.isEmpty then p.add "\n" else p.line l.text := by
        split
        · rename_i hempty
          rw [hl, String.isEmpty_iff.1 hempty]
          exact p.put_blank
        · rename_i hempty
          rw [hl]
          exact p.put_top fun h => hempty (String.isEmpty_iff.2 h)
      rw [← List.singleton_append, put_append, hfirst, ih hrest]
      rfl
  refine hfold _ (fun l hl => ?_) p
  obtain ⟨_, -, rfl⟩ := List.mem_map.1 hl
  rfl

/-- At depth zero lines stand as deep as they say. -/
theorem put_of_depth_zero (h : p.depth = 0) (ls : List Line) :
    p.put ls = p.add (Line.renderAll p.indent ls) := by
  rw [put, h, List.map_congr_left fun l _ => l.raised_zero, List.map_id']

end Page

/-! ### The generator -/

open TemplateInput (OpenLoop inline? inlineEach joinInline isVoidTag isRendered)

/-- A page under construction, the loops that are open on it, and what came up for review. -/
structure Generator where
  page : Page
  /-- Innermost first. -/
  loops : List OpenLoop := []
  review : List ReviewItem := []

namespace Generator

def line (g : Generator) (text : String) : Generator := { g with page := g.page.line text }

def each (g : Generator) (texts : List String) : Generator := texts.foldl line g

def lines (g : Generator) (text : String) : Generator := { g with page := g.page.lines text }

def deeper (g : Generator) : Generator := { g with page := g.page.deeper }

def shallower (g : Generator) : Generator := { g with page := g.page.shallower }

def report (g : Generator) (items : List ReviewItem) : Generator :=
  { g with review := g.review ++ items }

def enter (g : Generator) (l : Loop) : Generator := { g with loops := (l.itemVar, l.array) :: g.loops }

def leave (g : Generator) : Generator := { g with loops := g.loops.tail }

def block (opening : String) (inside : Generator → Generator) (g : Generator) : Generator :=
  (inside (g.line opening).deeper).shallower

def enclosed (opening tag : String) (inside : Generator → Generator) (g : Generator) : Generator :=
  (g.block opening inside).line ("</" ++ tag ++ ">")

/-! ### Classes -/

def armText (variableName : String) (classes : List String) : String :=
  if classes.isEmpty then "\x7b# no classes #\x7d"
  else ClassList.append variableName (ClassList.quotedList classes)

def classArms (variableName : String) : Bool → List ClassArm → Generator → Generator
  | _, [], g => g
  | isFirst, a :: rest, g =>
    let opener := match a.condition with
      | some c => statement ((if isFirst then "if " else "elif ") ++ c)
      | none => statement "else"
    classArms variableName false rest (g.block opener (·.line (armText variableName a.classes)))

def classChain (variableName : String) (arms : List ClassArm) (g : Generator) : Generator :=
  if arms.all (·.condition.isNone) then
    g.each ((arms.filter (!·.classes.isEmpty)).map fun a =>
      ClassList.append variableName (ClassList.quotedList a.classes))
  else (classArms variableName true arms g).line (statement "endif")

/-- Every entry but a chain is a statement on one line. -/
def classEntry (variableName : String) (g : Generator) : ClassEntry → Generator
  | .chain _ arms => classChain variableName arms g
  | e => g.each ((ClassList.entryLines variableName e).map (·.text))

def classes (cl : ClassList) (variableName : String) (g : Generator) : Generator :=
  cl.entries.foldl (classEntry variableName)
    (g.line (statement ("set " ++ variableName ++ " = [" ++ ClassList.quotedList cl.base ++ "]")))

/-! ### Content -/

/-- Children on the line of their tag if they fit there. -/
def wrapChildren (opening tag : String) (inline : Option String) (children : Generator → Generator)
    (g : Generator) : Generator :=
  match inline with
  | some text => g.line (opening ++ text ++ "</" ++ tag ++ ">")
  | none => g.enclosed opening tag children

def baseComponent (r : BaseResolution) (inline : Option String) (children : Generator → Generator)
    (g : Generator) : Generator :=
  let opening := TemplateInput.baseOpening r
  let markup := fun g : Generator =>
    if isVoidTag r.tag then g.line opening else g.wrapChildren opening r.tag inline children
  match r.wrapper with
  | some w => g.enclosed (TemplateInput.wrapperOpening w) w.tag markup
  | none => markup g

variable (input : TemplateInput)

def component (u : Usage) (inline : Option String) (noChildren : Bool)
    (children : Generator → Generator) (g : Generator) : Generator :=
  match Dict.get? input.inlineComponents u.name with
  | some r => g.baseComponent r inline children
  | none =>
    let tag := componentTag u.name
    let spread := input.spreadTexts g.loops u u.spreads
    let head := "<" ++ tag ++ String.join ((u.props.filter isRendered).map input.boundText) ++ spread.value
    let g := g.report spread.review
    if noChildren then g.line (head ++ " />") else g.wrapChildren (head ++ ">") tag inline children

def todo (code : String) (g : Generator) : Generator :=
  g.lines ("\x7b# TODO_CONVERSION: Unsupported expression\n   Pattern: " ++
    String.ofList (replaceAll ['#', '\x7d'] ['#', ' ', '\x7d'] code.toList) ++
    "\n   Source: " ++ input.sourceFile ++ ":" ++ toString input.sourceLine ++
    "\n   Action: Translate this expression by hand\n#\x7d")

mutual

/-- A form on one line comes first, if there is one. -/
def element (c : Content) (g : Generator) : Generator :=
  match inline? input c with
  | some text => if text.isEmpty then g else g.line text
  | none =>
    match c with
    | .reference _ (some r) => element r g
    | .element u children =>
      let opening := "<" ++ u.name ++ input.elementAttributes u ++ ">"
      if isVoidTag u.name then g.line opening else g.enclosed opening u.name (content children)
    | .component u children =>
      g.component input u (joinInline (inlineEach input children)) children.isEmpty (content children)
    | .conditional condition body =>
      (g.block (statement ("if " ++ input.jinja condition)) (content body)).line (statement "endif")
    | .conditionalComponent condition u children =>
      (g.block (statement ("if " ++ input.jinja condition)) fun g =>
        g.component input u (joinInline (inlineEach input children)) children.isEmpty
          (content children)).line (statement "endif")
    | .ternary condition a b =>
      let g := g.block (statement ("if " ++ input.jinja condition)) (element a)
      (g.block (statement "else") (element b)).line (statement "endif")
    | .branches bs => (arms true bs g).line (statement "endif")
    | .arrayMap l body =>
      let opening := statement
        ("for " ++ input.names.resolve l.itemVar ++ " in " ++ input.jinja l.array)
      (g.block opening fun g =>
        let g := match l.indexVar with
          | some i => g.line (statement ("set " ++ input.names.resolve i ++ " = loop.index0"))
          | none => g
        (content body (g.enter l)).leave).line (statement "endfor")
    | .unsupported code => g.todo input code
    | _ => g

def content : List Content → Generator → Generator
  | [], g => g
  | c :: cs, g => content cs (element c g)

def arms : Bool → List Branch → Generator → Generator
  | _, [], g => g
  | isFirst, b :: bs, g => arms false bs (arm isFirst b g)

def arm : Bool → Branch → Generator → Generator
  | isFirst, .mk condition body, g =>
    let opener := match condition with
      | some c => (if isFirst then "if " else "elif ") ++ input.jinja c
      | none => "else"
    g.block (statement opener) (content body)

end

/-! ### The template -/

def body (g : Generator) : Generator :=
  match input.customContent with
  | some custom => g.lines custom
  | none => if input.content.isEmpty then g.line "\x7b# Content #\x7d" else g.content input input.content

def root (options : Options) (g : Generator) : Generator :=
  let (g, tag, isVoid) := match input.root.tag with
    | .fixed tag => (g, tag, isVoidTag tag)
    | .dynamic code =>
      let expression := (templateLiteral? input.names code).getD (input.jinja code)
      (g.line (statement ("set tag_name = " ++ expression)), output "tag_name", false)
  let g := input.root.wrappers.foldl (fun g w => (g.line (TemplateInput.wrapperOpening w)).deeper) g
  let attributes := fun g : Generator =>
    g.each (TemplateInput.closeLast (input.rootAttributes options tag))
  let g := if isVoid then g.block ("<" ++ tag) attributes
    else g.enclosed ("<" ++ tag) tag fun g => (attributes g).body input
  input.root.wrappers.foldr (fun w g => g.shallower.line ("</" ++ w.tag ++ ">")) g

def run (options : Options) : Generator :=
  let g : Generator := { page := { indent := options.indent }, review := input.names.review }
  let g := g.each (input.headerLines.map (·.text))
  let g := g.each (input.variableLines.map (·.text))
  (g.classes input.classes options.classVar).root input options

/-! ### What the generator writes -/

def put (g : Generator) (ls : List Line) (items : List ReviewItem) : Generator :=
  { g with page := g.page.put ls, review := g.review ++ items }

/-- While exactly these loops are open, the generator adds these lines and items, and ends at the
depth and with the loops that it started with. -/
def Emits (loops : List OpenLoop) (emit : Generator → Generator) (ls : List Line)
    (items : List ReviewItem) : Prop :=
  ∀ g : Generator, g.loops = loops → emit g = g.put ls items

namespace Emits

variable {loops : List OpenLoop} {emit next : Generator → Generator} {ls more : List Line}
  {items others : List ReviewItem}

theorem nil : Emits loops (fun g => g) [] [] := by
  intro g _
  rw [put, Page.put_nil, List.append_nil]

theorem line {text : String} (h : text ≠ "") : Emits loops (·.line text) [.top text] [] := by
  intro g _
  rw [put, Page.put_top _ h, List.append_nil]
  rfl

theorem ofText (text : String) : Emits loops (·.lines text) (Line.ofText text) [] := by
  intro g _
  rw [put, Page.put_ofText, List.append_nil]
  rfl

theorem report (loops : List OpenLoop) (items : List ReviewItem) : Emits loops (·.report items) [] items := by
  intro g _
  rw [put, Page.put_nil]
  rfl

theorem comp (h : Emits loops emit ls items) (hnext : Emits loops next more others) :
    Emits loops (fun g => next (emit g)) (ls ++ more) (items ++ others) := by
  intro g hg
  have hloops : (g.put ls items).loops = loops := hg
  dsimp only
  rw [h g hg, hnext _ hloops, put, put, put, Page.put_append, List.append_assoc]

/-- A block writes its own line, and the lines inside one level deeper. -/
theorem block {opening : String} (hopening : opening ≠ "") (h : Emits loops emit ls items) :
    Emits loops (·.block opening emit) (.top opening :: Line.deeper ls) items := by
  intro g hg
  have hloops : (g.line opening).deeper.loops = loops := hg
  calc (emit (g.line opening).deeper).shallower
      = ((g.line opening).deeper.put ls items).shallower := by rw [h _ hloops]
    _ = g.put (.top opening :: Line.deeper ls) items := by
      rw [put, put, ← List.singleton_append, Page.put_append, Page.put_top _ hopening, Page.put_deeper]
      rfl

theorem enclosed {opening tag : String} (hopening : opening ≠ "") (h : Emits loops emit ls items) :
    Emits loops (·.enclosed opening tag emit)
      (.top opening :: Line.deeper ls ++ [TemplateInput.closing tag]) items := by
  have hclosing : "</" ++ tag ++ ">" ≠ "" := by simp
  have hboth := (block hopening h).comp (line hclosing)
  rw [List.append_nil] at hboth
  exact hboth

/-- Every text is a line. -/
theorem each {texts : List String} (h : ∀ t ∈ texts, t ≠ "") :
    Emits loops (·.each texts) (texts.map Line.top) [] := by
  induction texts with
  | nil => exact nil
  | cons t rest ih =>
    obtain ⟨ht, hrest⟩ := List.forall_mem_cons.1 h
    exact (line ht).comp (ih hrest)

end Emits

/-! ### Classes are written as their lines -/

section Classes

variable {loops : List OpenLoop} {variableName : String}

private theorem statement_ne_empty (code : String) : statement code ≠ "" := by
  simp [statement]

private theorem guarded_ne_empty (condition text : String) : guarded condition text ≠ "" := by
  simp [guarded, statement]

private theorem armText_ne_empty (variableName : String) (classes : List String) : armText variableName classes ≠ "" := by
  rw [armText]
  split
  · decide
  · exact statement_ne_empty _

private theorem emits_classArm {opener : String} (hopener : opener ≠ "") (classes : List String) :
    Emits loops (·.block opener (·.line (armText variableName classes)))
      (ClassList.armLines variableName opener classes) [] := by
  have hdeeper : Line.deeper [.top (armText variableName classes)] = [⟨1, armText variableName classes⟩] := by
    simp only [Line.deeper, Line.top, List.map_cons, List.map_nil, String.isEmpty_iff,
      armText_ne_empty, if_false, Nat.zero_add]
  have hblock : Emits loops _ _ [] := .block hopener (.line (armText_ne_empty variableName classes))
  rw [hdeeper] at hblock
  exact hblock

private theorem emits_laterArms (arms : List ClassArm) :
    Emits loops (fun g => (classArms variableName false arms g).line (statement "endif"))
      (ClassList.laterArms variableName arms) [] := by
  induction arms with
  | nil => exact .line (statement_ne_empty _)
  | cons a rest ih =>
    have hopener : (match a.condition with
        | some c => statement ("elif " ++ c)
        | none => statement "else") ≠ "" := by
      split <;> exact statement_ne_empty _
    exact (emits_classArm hopener a.classes).comp ih

private theorem emits_classChain (arms : List ClassArm) :
    Emits loops (classChain variableName arms) (ClassList.chainLines variableName arms) [] := by
  intro g hg
  rw [classChain, ClassList.chainLines.eq_def]
  split
  · have heach := Emits.each (List.forall_mem_map.2 fun (a : ClassArm)
      (_ : a ∈ arms.filter (!·.classes.isEmpty)) => statement_ne_empty ("set " ++ variableName ++ " = " ++
        variableName ++ " + [" ++ ClassList.quotedList a.classes ++ "]")) g hg
    rw [List.map_map] at heach
    exact heach
  · rename_i hconditional
    cases arms with
    | nil => exact absurd rfl hconditional
    | cons a rest =>
      have hopener : (match a.condition with
          | some c => statement ("if " ++ c)
          | none => statement "else") ≠ "" := by
        split <;> exact statement_ne_empty _
      exact (emits_classArm hopener a.classes).comp (emits_laterArms rest) g hg

private theorem emits_classEntry (e : ClassEntry) :
    Emits loops (classEntry variableName · e) (ClassList.entryLines variableName e) [] := by
  match e with
  | .guarded condition classes => exact .line (guarded_ne_empty _ _)
  | .chain name arms => exact emits_classChain arms
  | .computed expression => exact .line (guarded_ne_empty _ _)
  | .template expression (some guard) => exact .line (guarded_ne_empty _ _)
  | .template expression none => exact .line (statement_ne_empty _)

theorem emits_classes (cl : ClassList) (variableName : String) :
    Emits loops (classes cl variableName) (cl.lines variableName) [] := by
  have hentries (entries : List ClassEntry) : Emits loops (entries.foldl (classEntry variableName))
      (entries.flatMap (ClassList.entryLines variableName)) [] := by
    induction entries with
    | nil => exact .nil
    | cons e rest ih => exact (emits_classEntry e).comp ih
  exact (Emits.line (statement_ne_empty _)).comp (hentries cl.entries)

end Classes

/-! ### Content is written as its lines -/

section Content

variable {input : TemplateInput} {loops : List OpenLoop} {inline : Option String}
  {children : Generator → Generator} {ls : List Line} {items : List ReviewItem}

private theorem emits_wrapChildren {opening tag : String} (hopening : opening ≠ "")
    (hinline : inline.isSome = true → items = [])
    (hchildren : inline.isSome = false → Emits loops children ls items) :
    Emits loops (·.wrapChildren opening tag inline children)
      (TemplateInput.wrap opening tag inline ls) items := by
  cases inline with
  | some text =>
    rw [hinline rfl]
    exact .line (by simp [String.append_eq_empty_iff])
  | none => exact .enclosed hopening (hchildren rfl)

private theorem emits_baseComponent (r : BaseResolution)
    (hinline : (isVoidTag r.tag || inline.isSome) = true → items = [])
    (hchildren : (isVoidTag r.tag || inline.isSome) = false → Emits loops children ls items) :
    Emits loops (·.baseComponent r inline children) (TemplateInput.baseLines r inline ls) items := by
  have hopening : TemplateInput.baseOpening r ≠ "" := by
    simp [TemplateInput.baseOpening]
  have hmarkup : Emits loops
      (fun g => if isVoidTag r.tag then g.line (TemplateInput.baseOpening r)
        else g.wrapChildren (TemplateInput.baseOpening r) r.tag inline children)
      (if isVoidTag r.tag then [.top (TemplateInput.baseOpening r)]
        else TemplateInput.wrap (TemplateInput.baseOpening r) r.tag inline ls) items := by
    split
    · rename_i hvoid
      rw [hinline (by rw [hvoid, Bool.true_or])]
      exact .line hopening
    · rename_i hvoid
      rw [Bool.eq_false_iff.2 hvoid, Bool.false_or] at hinline hchildren
      exact emits_wrapChildren hopening hinline hchildren
  intro g hg
  dsimp only [baseComponent, TemplateInput.baseLines]
  cases r.wrapper with
  | some w => exact Emits.enclosed (by simp [TemplateInput.wrapperOpening]) hmarkup g hg
  | none => exact hmarkup g hg

private theorem emits_component (input : TemplateInput) (inline : Option String) (u : Usage)
    (noChildren : Bool) {body : Reviewed (List Line)}
    (hchildren : Emits loops children body.value body.review) :
    Emits loops (component input u inline noChildren children)
      (input.componentLines loops u inline noChildren body).value
      (input.componentLines loops u inline noChildren body).review := by
  intro g hg
  rw [component, TemplateInput.componentLines]
  cases Dict.get? input.inlineComponents u.name with
  | some r =>
    dsimp only
    split
    · rename_i hunused
      refine emits_baseComponent r (fun _ => rfl) (fun h => ?_) g hg
      rw [hunused] at h
      cases h
    · rename_i hneeded
      simp only [Reviewed.value_bind, Reviewed.value_pure, Reviewed.review_bind, Reviewed.review_pure,
        List.append_nil]
      exact emits_baseComponent r (fun h => absurd h hneeded) (fun _ => hchildren) g hg
  | none =>
    subst hg
    have hreport := Emits.report g.loops (input.spreadTexts g.loops u u.spreads).review
    dsimp only
    split
    · simp only [Reviewed.value_bind, Reviewed.value_pure, Reviewed.review_bind, Reviewed.review_pure]
      exact hreport.comp (Emits.line (by simp)) g rfl
    · split
      · rename_i hsome
        simp only [Reviewed.value_bind, Reviewed.value_pure, Reviewed.review_bind, Reviewed.review_pure]
        refine hreport.comp (emits_wrapChildren (by simp) (fun _ => rfl) fun h => ?_) g rfl
        rw [hsome] at h
        cases h
      · rename_i hnone
        have hinline : inline = none := Option.not_isSome_iff_eq_none.1 hnone
        subst hinline
        simp only [Reviewed.value_bind, Reviewed.value_pure, Reviewed.review_bind, Reviewed.review_pure,
          List.append_nil]
        refine hreport.comp (emits_wrapChildren (by simp) (fun h => ?_) fun _ => hchildren) g rfl
        cases h

private theorem emits_inline {c : Content} {text : String} (h : inline? input c = some text) :
    Emits loops (element input c) (if text.isEmpty then [] else [.top text]) [] := by
  intro g hg
  rw [element.eq_def, h]
  dsimp only
  split
  · exact Emits.nil g hg
  · rename_i htext
    exact Emits.line (fun h => htext (String.isEmpty_iff.2 h)) g hg

private theorem emits_inlineLine (c : Content) (h : (inline? input c).isSome = true)
    {r : Reviewed (List Line)}
    (hr : ∀ text, inline? input c = some text → r = pure (if text.isEmpty then [] else [.top text])) :
    Emits loops (element input c) r.value r.review := by
  obtain ⟨text, htext⟩ := Option.isSome_iff_exists.1 h
  rw [hr text htext]
  exact emits_inline htext

private theorem emits_inline_of_ne_empty {c : Content} {text : String} (h : inline? input c = some text)
    (htext : text ≠ "") : Emits loops (element input c) [.top text] [] := by
  have hline : Emits loops _ _ [] := emits_inline h
  rw [if_neg fun hempty => htext (String.isEmpty_iff.1 hempty)] at hline
  exact hline

private theorem inline?_element_ne_empty {u : Usage} {cs : List Content} {text : String}
    (h : inline? input (.element u cs) = some text) : text ≠ "" := by
  rw [inline?] at h
  split at h
  · cases h
  · obtain ⟨_, -, rfl⟩ := Option.map_eq_some_iff.1 h
    simp [String.append_eq_empty_iff]

private theorem inline?_conditional_ne_empty {condition : String} {cs : List Content} {text : String}
    (h : inline? input (.conditional condition cs) = some text) : text ≠ "" := by
  rw [inline?] at h
  split at h
  · cases h
    exact guarded_ne_empty _ _
  · cases h

private theorem inline?_ternary_ne_empty {condition : String} {a b : Content} {text : String}
    (h : inline? input (.ternary condition a b) = some text) : text ≠ "" := by
  rw [inline?] at h
  obtain ⟨_, -, h⟩ := Option.bind_eq_some_iff.1 h
  obtain ⟨_, -, h⟩ := Option.bind_eq_some_iff.1 h
  cases h
  simp [output]

private theorem emits_inIf {emit : Generator → Generator} (condition : String)
    (h : Emits loops emit ls items) :
    Emits loops (fun g => (g.block (statement ("if " ++ condition)) emit).line (statement "endif"))
      (TemplateInput.inIf condition ls ++ [TemplateInput.endIf]) items := by
  have hboth := (Emits.block (statement_ne_empty ("if " ++ condition)) h).comp
    (.line (statement_ne_empty "endif"))
  rw [List.append_nil] at hboth
  exact hboth

private theorem emits_index (input : TemplateInput) (indexVar : Option String) :
    Emits loops (fun g => match indexVar with
        | some i => g.line (statement ("set " ++ input.names.resolve i ++ " = loop.index0"))
        | none => g)
      (indexVar.map fun i =>
        Line.top (statement ("set " ++ input.names.resolve i ++ " = loop.index0"))).toList [] := by
  cases indexVar with
  | none => exact .nil
  | some i => exact .line (statement_ne_empty _)

private theorem emits_entered {l : Loop} {emit : Generator → Generator}
    (h : Emits ((l.itemVar, l.array) :: loops) emit ls items) :
    Emits loops (fun g => (emit (g.enter l)).leave) ls items := by
  intro g hg
  have hloops : (g.enter l).loops = (l.itemVar, l.array) :: loops := by rw [enter, hg]
  dsimp only
  rw [h _ hloops]
  rfl

mutual

/-- Whatever the content, the generator writes its lines. -/
theorem emits_element (input : TemplateInput) : (c : Content) → (loops : List OpenLoop) →
    Emits loops (element input c) (input.lines loops c).value (input.lines loops c).review
  | .reference name (some r), loops => by
    intro g hg
    rw [element, TemplateInput.lines]
    exact emits_element input r loops g hg
  | .element u children, loops => by
    rw [TemplateInput.lines]
    cases h : inline? input (.element u children) with
    | some text => exact emits_inline_of_ne_empty h (inline?_element_ne_empty h)
    | none =>
      intro g hg
      rw [element.eq_def, h]
      dsimp only
      split
      · exact Emits.line (by simp) g hg
      · simp only [Reviewed.value_bind, Reviewed.value_pure, Reviewed.review_bind,
          Reviewed.review_pure, List.append_nil]
        exact Emits.enclosed (by simp) (emits_content input children loops) g hg
  | .component u children, loops => by
    have hcomponent := emits_component input (joinInline (inlineEach input children)) u
      children.isEmpty (emits_content input children loops)
    intro g hg
    rw [element, TemplateInput.lines]
    exact hcomponent g hg
  | .conditional condition body, loops => by
    rw [TemplateInput.lines]
    cases h : inline? input (.conditional condition body) with
    | some text => exact emits_inline_of_ne_empty h (inline?_conditional_ne_empty h)
    | none =>
      intro g hg
      rw [element.eq_def, h]
      simp only [Reviewed.value_bind, Reviewed.value_pure, Reviewed.review_bind, Reviewed.review_pure,
        List.append_nil]
      exact emits_inIf _ (emits_content input body loops) g hg
  | .conditionalComponent condition u children, loops => by
    have hcomponent := emits_component input (joinInline (inlineEach input children)) u
      children.isEmpty (emits_content input children loops)
    intro g hg
    rw [element, TemplateInput.lines]
    simp only [Reviewed.value_bind, Reviewed.value_pure, Reviewed.review_bind, Reviewed.review_pure,
      List.append_nil]
    exact emits_inIf _ hcomponent g hg
  | .ternary condition a b, loops => by
    rw [TemplateInput.lines]
    cases h : inline? input (.ternary condition a b) with
    | some text => exact emits_inline_of_ne_empty h (inline?_ternary_ne_empty h)
    | none =>
      intro g hg
      rw [element.eq_def, h]
      simp only [Reviewed.value_bind, Reviewed.value_pure, Reviewed.review_bind, Reviewed.review_pure,
        List.append_nil]
      have hyes := Emits.block (statement_ne_empty ("if " ++ input.jinja condition))
        (emits_element input a loops)
      have hno := Emits.block (statement_ne_empty "else") (emits_element input b loops)
      have hall := (hyes.comp hno).comp (.line (statement_ne_empty "endif"))
      rw [List.append_nil] at hall
      exact hall g hg
  | .branches bs, loops => by
    intro g hg
    rw [element, TemplateInput.lines]
    simp only [Reviewed.value_bind, Reviewed.value_pure, Reviewed.review_bind, Reviewed.review_pure]
    exact (emits_arms input true bs loops).comp (.line (statement_ne_empty "endif")) g hg
  | .arrayMap l body, loops => by
    have hbody := emits_entered (emits_content input body ((l.itemVar, l.array) :: loops))
    have hall := (Emits.block (statement_ne_empty ("for " ++ input.names.resolve l.itemVar ++ " in " ++
      input.jinja l.array)) ((emits_index input l.indexVar).comp hbody)).comp
        (.line (statement_ne_empty "endfor"))
    intro g hg
    rw [element, TemplateInput.lines]
    exact hall g hg
  | .unsupported code, loops => by
    intro g hg
    rw [element, todo, TemplateInput.lines, Reviewed.value_pure, Reviewed.review_pure,
      TemplateInput.todoLines]
    exact Emits.ofText _ g hg
  | .literal text, loops =>
    emits_inlineLine (.literal text) rfl fun _ h => by simp only [TemplateInput.lines, h]
  | .reference name none, loops =>
    emits_inlineLine (.reference name none) rfl fun _ h => by simp only [TemplateInput.lines, h]
  | .fallback chain, loops =>
    emits_inlineLine (.fallback chain) rfl fun _ h => by simp only [TemplateInput.lines, h]
  | .call function argument, loops =>
    emits_inlineLine (.call function argument) rfl fun _ h => by simp only [TemplateInput.lines, h]

theorem emits_content (input : TemplateInput) : (cs : List Content) → (loops : List OpenLoop) →
    Emits loops (content input cs) (input.linesAll loops cs).value (input.linesAll loops cs).review
  | [], loops => by
    intro g hg
    rw [content, TemplateInput.linesAll]
    exact Emits.nil g hg
  | c :: cs, loops => by
    intro g hg
    rw [content, TemplateInput.linesAll]
    simp only [Reviewed.value_bind, Reviewed.value_pure, Reviewed.review_bind, Reviewed.review_pure,
      List.append_nil]
    exact (emits_element input c loops).comp (emits_content input cs loops) g hg

theorem emits_arms (input : TemplateInput) (isFirst : Bool) :
    (bs : List Branch) → (loops : List OpenLoop) →
    Emits loops (arms input isFirst bs) (input.branchLines loops isFirst bs).value
      (input.branchLines loops isFirst bs).review
  | [], loops => by
    intro g hg
    rw [arms, TemplateInput.branchLines]
    exact Emits.nil g hg
  | b :: bs, loops => by
    intro g hg
    rw [arms, TemplateInput.branchLines]
    simp only [Reviewed.value_bind, Reviewed.value_pure, Reviewed.review_bind, Reviewed.review_pure,
      List.append_nil]
    exact (emits_arm input isFirst b loops).comp (emits_arms input false bs loops) g hg

theorem emits_arm (input : TemplateInput) (isFirst : Bool) : (b : Branch) → (loops : List OpenLoop) →
    Emits loops (arm input isFirst b) (input.armLines loops isFirst b).value
      (input.armLines loops isFirst b).review
  | .mk condition body, loops => by
    intro g hg
    rw [arm.eq_def, TemplateInput.armLines.eq_def]
    simp only [Reviewed.value_bind, Reviewed.value_pure, Reviewed.review_bind, Reviewed.review_pure,
      List.append_nil]
    exact Emits.block (statement_ne_empty _) (emits_content input body loops) g hg

end

end Content

/-! ### The template is written as its lines -/

section Template

variable (input : TemplateInput) (options : Options) {loops : List OpenLoop}
  {emit : Generator → Generator} {ls : List Line} {items : List ReviewItem}

private theorem emits_body :
    Emits [] (body input) input.bodyLines.value input.bodyLines.review := by
  intro g hg
  rw [body, TemplateInput.bodyLines]
  cases input.customContent with
  | some custom => exact Emits.ofText custom g hg
  | none =>
    dsimp only
    split
    · exact Emits.line (by decide) g hg
    · exact emits_content input input.content [] g hg

private theorem emits_inWrappers (wrappers : List Wrapper) (h : Emits loops emit ls items) :
    Emits loops
      (fun g => wrappers.foldr (fun w g => g.shallower.line ("</" ++ w.tag ++ ">"))
        (emit (wrappers.foldl (fun g w => (g.line (TemplateInput.wrapperOpening w)).deeper) g)))
      (wrappers.foldr TemplateInput.inWrapper ls) items := by
  induction wrappers with
  | nil => exact h
  | cons w rest ih => exact .enclosed (by simp [TemplateInput.wrapperOpening]) ih

private theorem closeLast_ne_empty {attributes : List String} (h : ∀ a ∈ attributes, a ≠ "") :
    ∀ a ∈ TemplateInput.closeLast attributes, a ≠ "" := by
  induction attributes with
  | nil => exact List.forall_mem_nil _
  | cons a rest ih =>
    obtain ⟨ha, hrest⟩ := List.forall_mem_cons.1 h
    cases rest with
    | nil => simp [TemplateInput.closeLast]
    | cons b rest => exact List.forall_mem_cons.2 ⟨ha, ih hrest⟩

private theorem rootAttributes_ne_empty (tag : String) :
    ∀ a ∈ input.rootAttributes options tag, a ≠ "" := by
  have hattribute (name value : String) : TemplateInput.attributeText name value ≠ "" := by
    simp [TemplateInput.attributeText, String.append_eq_empty_iff]
  have hforwarded (a : Attribute) (html : String) : input.forwardedText a html ≠ "" := by
    rw [TemplateInput.forwardedText]
    split
    · exact guarded_ne_empty _ _
    · exact hattribute _ _
  simp only [TemplateInput.rootAttributes, List.forall_mem_append, List.forall_mem_cons,
    List.forall_mem_map]
  refine ⟨⟨⟨⟨⟨⟨hattribute _ _, hattribute _ _, List.forall_mem_nil _⟩, ?_⟩, ?_⟩, ?_⟩, ?_⟩, ?_,
    List.forall_mem_nil _⟩
  · exact fun _ _ => hattribute _ _
  · exact fun _ _ => guarded_ne_empty _ _
  · exact fun _ _ => hforwarded _ _
  · exact fun _ _ => guarded_ne_empty _ _
  · simp [output]

private theorem emits_rootElement (tag : String) (isVoid : Bool) {body : Reviewed (List Line)}
    (h : Emits loops emit body.value body.review) :
    Emits loops
      (fun g => if isVoid then g.block ("<" ++ tag) fun g =>
          g.each (TemplateInput.closeLast (input.rootAttributes options tag))
        else g.enclosed ("<" ++ tag) tag fun g =>
          emit (g.each (TemplateInput.closeLast (input.rootAttributes options tag))))
      (.top ("<" ++ tag) :: Line.deeper
        ((TemplateInput.closeLast (input.rootAttributes options tag)).map Line.top ++
          (if isVoid then pure [] else body : Reviewed (List Line)).value) ++
          (if isVoid then [] else [TemplateInput.closing tag]))
      (if isVoid then pure [] else body : Reviewed (List Line)).review := by
  have hattributes : Emits loops (fun g =>
      g.each (TemplateInput.closeLast (input.rootAttributes options tag))) _ [] :=
    .each (closeLast_ne_empty (rootAttributes_ne_empty input options tag))
  have hopening : "<" ++ tag ≠ "" := by simp
  cases isVoid with
  | true =>
    simp only [if_true, Reviewed.value_pure, Reviewed.review_pure, List.append_nil]
    exact .block hopening hattributes
  | false =>
    have hboth := hattributes.comp h
    simp only [Bool.false_eq_true, if_false]
    exact .enclosed hopening hboth

private theorem emits_root :
    Emits [] (root input options) (input.rootLines options).value (input.rootLines options).review := by
  intro g hg
  have helement (tag : String) (isVoid : Bool) := emits_inWrappers input.root.wrappers
    (emits_rootElement input options tag isVoid (emits_body input))
  rw [root, TemplateInput.rootLines]
  cases input.root.tag with
  | fixed tag =>
    dsimp only
    cases isVoidTag tag with
    | true => exact helement tag true g hg
    | false =>
      simp only [Bool.false_eq_true, if_false, Reviewed.value_bind, Reviewed.value_pure,
        Reviewed.review_bind, Reviewed.review_pure, List.append_nil, List.nil_append]
      exact helement tag false g hg
  | dynamic code =>
    have hsetup : Emits [] _ _ [] := .line (statement_ne_empty ("set tag_name = " ++
      (templateLiteral? input.names code).getD (input.jinja code)))
    simp only [Bool.false_eq_true, if_false, Reviewed.value_bind, Reviewed.value_pure,
      Reviewed.review_bind, Reviewed.review_pure, List.append_nil]
    exact hsetup.comp (helement (output "tag_name") false) g hg

end Template

/-- The generator ends at depth zero with no open loop, and its page is the template. -/
theorem run_eq (input : TemplateInput) (options : Options) :
    run input options =
      { page := { indent := options.indent, depth := 0, text := (input.compile options).value }
        loops := [], review := (input.compile options).review } := by
  have htops {ls : List Line} (hls : ∀ l ∈ ls, l.text ≠ "" ∧ l = .top l.text) :
      Emits [] (·.each (ls.map (·.text))) ls [] := by
    have hsame : ls.map (Line.top ∘ (·.text)) = ls :=
      (List.map_congr_left fun l hl => (hls l hl).2.symm).trans ls.map_id
    have heach : Emits [] _ _ [] := .each (List.forall_mem_map.2 fun l hl => (hls l hl).1)
    rw [List.map_map, hsame] at heach
    exact heach
  have hheader : Emits [] (·.each (input.headerLines.map (·.text))) input.headerLines [] := by
    refine htops ?_
    simp only [TemplateInput.headerLines, List.forall_mem_cons]
    exact ⟨⟨statement_ne_empty _, rfl⟩, ⟨by simp [Line.top], rfl⟩, ⟨by simp [Line.top], rfl⟩,
      List.forall_mem_nil _⟩
  have hvariables : Emits [] (·.each (input.variableLines.map (·.text))) input.variableLines [] := by
    refine htops fun l hl => ?_
    obtain ⟨a, -, rfl⟩ := List.mem_map.1 hl
    exact ⟨statement_ne_empty _, rfl⟩
  have hall := ((hheader.comp hvariables).comp (emits_classes input.classes options.classVar)).comp
    (emits_root input options)
  have hrun := hall { page := { indent := options.indent }, review := input.names.review } rfl
  rw [put, Page.put_of_depth_zero _ rfl, Page.add, String.empty_append, List.append_nil,
    List.append_nil, List.nil_append] at hrun
  exact hrun

end Generator

end JsxToJinja.Jinja
