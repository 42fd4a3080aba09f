import JsxToJinja.Jinja.Template
import JsxToJinja.Proofs.Component.AttributeNames
import JsxToJinja.Proofs.Jinja.Variables

/-! Statements that read the attributes. Reserved names are written around, other names are taken
over, so a statement is as good as the name that a member has in its file. -/
namespace JsxToJinja.Jinja
open JsxToJinja.Text JsxToJinja.Code

/-- A name that a template can give to a variable: a letter or an underscore, then letters, digits
and underscores. -/
def isVariable : List Char → Bool
  | [] => false
  | c :: t => (isAlphabetic c || c == '_') && t.all isWord

/-- What a statement that reads an attribute consists of. -/
structure Assignment where
  target : String
  source : String
  fallback : Option Json

namespace Assignment

def text (x : Assignment) : String :=
  statement ("set " ++ x.target ++ " = " ++
    match x.fallback with
    | some v => x.source ++ " | default(" ++ literal v ++ ")"
    | none => x.source)

/-- The variable has a name that a template can use, and the attribute is read as a field of such a
name or through a quoted key. -/
def Legal (x : Assignment) : Prop :=
  isVariable x.target.toList = true ∧
    ((∃ field, isVariable field.toList = true ∧ x.source = "_component_context." ++ field) ∨
      ∃ key, x.source = "_component_context[" ++ quote key ++ "]")

def ofAttribute (names : NameMap) (a : Attribute) : Assignment where
  target := names.resolve a.name
  source :=
    if names.isRenamed a.name then "_component_context[" ++ quote a.name ++ "]"
    else "_component_context." ++ a.name
  fallback := defaultValue? a

end Assignment

theorem variableLine_eq (names : NameMap) (a : Attribute) :
    TemplateInput.variableLine names a = .top (Assignment.ofAttribute names a).text := by
  unfold TemplateInput.variableLine Assignment.text Assignment.ofAttribute
  cases defaultValue? a <;> rfl

/-! ### Names -/

theorem isVariable_reserved {name : String} (h : isReserved name = true) :
    isVariable name.toList = true ∧ isVariable (name ++ "_attr").toList = true := by
  have all : ∀ r ∈ reservedNames,
      isVariable r.toList = true ∧ isVariable (r ++ "_attr").toList = true := by decide +kernel
  exact all name (List.contains_iff_mem.1 h)

theorem isAlphabetic_of_isAlpha {c : Char} (h : c.isAlpha = true) : isAlphabetic c = true := by
  have hlt : c.toNat < 128 := by
    change (decide ('A'.val ≤ c.val ∧ c.val ≤ 'Z'.val) ||
      (decide ('a'.val ≤ c.val) && decide (c.val ≤ 'z'.val))) = true at h
    simp only [Bool.or_eq_true, Bool.and_eq_true, decide_eq_true_eq, UInt32.le_iff_toNat_le] at h
    have hz : ('z'.val).toNat = 122 := rfl
    have hZ : ('Z'.val).toNat = 90 := rfl
    rw [Char.toNat]
    omega
  rw [isAlphabetic, if_pos hlt, h]

/-- Of the characters of a bare name only the dollar sign is none of a variable. -/
theorem isVariable_iff_of_isName {n : List Char} (h : isName n = true) :
    isVariable n = true ↔ '$' ∉ n := by
  cases n with
  | nil => cases h
  | cons c t =>
    simp only [isName, isIdentifierStart, Bool.and_eq_true, Bool.or_eq_true, List.all_eq_true,
      beq_iff_eq] at h
    simp only [isVariable, Bool.and_eq_true, Bool.or_eq_true, List.all_eq_true, beq_iff_eq,
      List.mem_cons, not_or]
    constructor
    · rintro ⟨hc, ht⟩
      refine ⟨?_, fun hm => ?_⟩
      · rintro rfl
        exact absurd hc (by decide)
      · exact absurd (ht _ hm) (by decide)
    · rintro ⟨hc, ht⟩
      refine ⟨?_, fun d hd => (h.2 d hd).resolve_right ?_⟩
      · rcases h.1 with (hstart | hstart) | hstart
        · exact .inl (isAlphabetic_of_isAlpha hstart)
        · exact .inr hstart
        · exact absurd hstart.symm hc
      · rintro rfl
        exact ht hd

/-! ### Statements -/

theorem isRenamed_ofNames (declared : List String) (name : String) :
    (NameMap.ofNames declared).isRenamed name = true ↔ name ∈ declared ∧ isReserved name = true := by
  have start : NameMap.Suffixed {} := fun e he => by cases he
  rw [NameMap.ofNames, (start.foldl_declare declared).2]
  simp [NameMap.isRenamed, Dict.has, Dict.get?]

/-- A statement is as good as the name of its attribute. -/
theorem legal_ofAttribute_iff {declared : List String} {a : Attribute} (h : a.name ∈ declared) :
    (Assignment.ofAttribute (.ofNames declared) a).Legal ↔ isVariable a.name.toList = true := by
  have hrenamed := isRenamed_ofNames declared a.name
  rw [Assignment.Legal, Assignment.ofAttribute, NameMap.resolve_ofNames]
  dsimp only
  by_cases hr : isReserved a.name = true
  · obtain ⟨hplain, hsuffixed⟩ := isVariable_reserved hr
    rw [if_pos ⟨h, hr⟩, if_pos (hrenamed.2 ⟨h, hr⟩)]
    exact iff_of_true ⟨hsuffixed, .inr ⟨a.name, rfl⟩⟩ hplain
  · rw [if_neg fun hm => hr hm.2, if_neg fun hm => hr (hrenamed.1 hm).2]
    exact ⟨fun hlegal => hlegal.1, fun hname => ⟨hname, .inl ⟨a.name, hname, rfl⟩⟩⟩

/-- Functions and the content are not read. -/
def isRead (a : Attribute) : Bool := !a.isFunction && a.name != "children"

/-- Each attribute of a file that is read has one statement, which is legal exactly if the name of the
member is one of a variable. For a bare name that is to say that it has no dollar sign; a quoted name
can be any text. -/
theorem variable_statements_legal_iff {text : String} {defaults hint : Option String} {s : Source}
    (h : Source.parse text defaults hint = .ok s) (input : TemplateInput)
    (hin : input.attributes = s.attributes) :
    input.variableLines = ((s.attributes.filter isRead).map fun a =>
        Line.top (Assignment.ofAttribute input.names a).text) ∧
      ∀ a ∈ s.attributes, isRead a = true → IsMemberName a.name.toList ∧
        ((Assignment.ofAttribute input.names a).Legal ↔ isVariable a.name.toList = true) ∧
        (isName a.name.toList = true →
          ((Assignment.ofAttribute input.names a).Legal ↔ '$' ∉ a.name.toList)) := by
  constructor
  · rw [TemplateInput.variableLines, hin]
    exact List.map_congr_left fun a _ => variableLine_eq input.names a
  · intro a ha _
    have hmem : a.name ∈ input.attributes.map (·.name) := hin ▸ List.mem_map.2 ⟨a, ha, rfl⟩
    have hlegal := legal_ofAttribute_iff hmem
    exact ⟨Source.isMemberName_of_parse h ha, hlegal,
      fun hname => hlegal.trans (isVariable_iff_of_isName hname)⟩

def badgeFile : String := "type P = \x7b 'aria-label': string \x7d;\nconst Badge = (p: P) => <b />;\n"

def cardFile : String := "type P = \x7b loop: any; label: string \x7d;\nconst Card = (p: P) => <b />;\n"

def statementsOf (text : String) : Option (List Line × List (String × Bool)) :=
  (Source.parse text none none).toOption.map fun s =>
    (({ attributes := s.attributes } : TemplateInput).variableLines,
      s.attributes.map fun a => (a.name, isRead a))

theorem statementsOf_badgeFile : statementsOf badgeFile =
    some ([.top "\x7b% set aria-label = _component_context.aria-label %\x7d"],
      [("aria-label", true)]) := by
  have hchars : badgeFile.toList = _ := String.toList_ofList
  generalize badgeFile = text at hchars ⊢
  rw [statementsOf, Source.parse, hchars]
  decide +kernel

theorem statementsOf_cardFile : statementsOf cardFile =
    some ([.top "\x7b% set loop_attr = _component_context['loop'] %\x7d",
        .top "\x7b% set label = _component_context.label %\x7d"],
      [("loop", true), ("label", true)]) := by
  have hchars : cardFile.toList = _ := String.toList_ofList
  generalize cardFile = text at hchars ⊢
  rw [statementsOf, Source.parse, hchars]
  decide +kernel

theorem exists_parse_of_statementsOf {text : String} {lines : List Line}
    {read : List (String × Bool)} (h : statementsOf text = some (lines, read)) :
    ∃ s, Source.parse text none none = .ok s ∧
      ({ attributes := s.attributes } : TemplateInput).variableLines = lines ∧
      (s.attributes.map fun a => (a.name, isRead a)) = read := by
  rw [statementsOf] at h
  cases hs : Source.parse text none none with
  | error e =>
    rw [hs] at h
    cases h
  | ok s =>
    rw [hs] at h
    cases h
    exact ⟨s, rfl, rfl, rfl⟩

/-- The name of a quoted member is taken over as it is. -/
theorem quoted_member_statement_not_legal :
    ∃ s, Source.parse badgeFile none none = .ok s ∧
      ({ attributes := s.attributes } : TemplateInput).variableLines =
        [.top "\x7b% set aria-label = _component_context.aria-label %\x7d"] ∧
      ∃ a ∈ s.attributes, isRead a = true ∧
        ¬ (Assignment.ofAttribute (.ofAttributes s.attributes) a).Legal := by
  obtain ⟨s, hs, hlines, hread⟩ := exists_parse_of_statementsOf statementsOf_badgeFile
  have hmem : ("aria-label", true) ∈ s.attributes.map fun a => (a.name, isRead a) := by
    rw [hread]
    exact List.mem_singleton_self _
  obtain ⟨a, ha, hpair⟩ := List.mem_map.1 hmem
  obtain ⟨hname, hisread⟩ := Prod.mk.inj hpair
  refine ⟨s, hs, hlines, a, ha, hisread, fun hlegal => ?_⟩
  have hvariable := (legal_ofAttribute_iff (List.mem_map.2 ⟨a, ha, rfl⟩)).1 hlegal
  rw [hname] at hvariable
  exact absurd hvariable (by decide)

/-- A reserved name and a plain one are both read by legal statements. -/
theorem bare_members_statements_legal :
    ∃ s, Source.parse cardFile none none = .ok s ∧
      ({ attributes := s.attributes } : TemplateInput).variableLines =
        [.top "\x7b% set loop_attr = _component_context['loop'] %\x7d",
          .top "\x7b% set label = _component_context.label %\x7d"] ∧
      ∀ a ∈ s.attributes, isRead a = true →
        (Assignment.ofAttribute (.ofAttributes s.attributes) a).Legal := by
  obtain ⟨s, hs, hlines, hread⟩ := exists_parse_of_statementsOf statementsOf_cardFile
  obtain ⟨-, hall⟩ := variable_statements_legal_iff hs { attributes := s.attributes } rfl
  refine ⟨s, hs, hlines, fun a ha hisread => (hall a ha hisread).2.1.2 ?_⟩
  have hmem : (a.name, isRead a) ∈ [("loop", true), ("label", true)] := by
    rw [← hread]
    exact List.mem_map.2 ⟨a, ha, rfl⟩
  have hnames : ∀ p ∈ [("loop", true), ("label", true)], isVariable p.1.toList = true := by decide
  exact hnames _ hmem

end JsxToJinja.Jinja
