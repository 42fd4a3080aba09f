import JsxToJinja.Classes.Switch
import JsxToJinja.Proofs.Jinja.MergedClasses
import JsxToJinja.Proofs.Number.Spelling
import JsxToJinja.Proofs.Text.Patterns
import JsxToJinja.Proofs.Text.Trimmed
import JsxToJinja.Proofs.Text.Words

/-! The chain of class rules made for a switch: for every value of its subject it appends the classes
of the result that the switch selects. -/
namespace JsxToJinja
open JsxToJinja.Text JsxToJinja.Code JsxToJinja.Markup

/-! ### Names in code -/

/-- Where a reading of code stands: behind a backslash, in a quoted literal, in a template literal, at
the brace that opens an interpolation, or inside braces. -/
inductive Frame where
  | escape
  | quoted (quote : Char)
  | template
  | opening
  | braces

/-- The text with blanks for the characters of its literals; interpolated code stays. -/
def codeOf : List Frame → List Char → List Char
  | _, [] => []
  | .escape :: rest, _ :: t => ' ' :: codeOf rest t
  | .quoted q :: rest, c :: t =>
    ' ' :: codeOf (if c == '\\' then .escape :: .quoted q :: rest
      else if c == q then rest else .quoted q :: rest) t
  | .template :: rest, c :: t =>
    ' ' :: codeOf (if c == '\\' then .escape :: .template :: rest else if c == '\x60' then rest
      else if startsWith (c :: t) interpolation then .opening :: .template :: rest
      else .template :: rest) t
  | .opening :: rest, c :: t => c :: codeOf (.braces :: rest) t
  | frames, c :: t =>
    c :: codeOf (if c == '\x27' || c == '\x22' then .quoted c :: frames
      else if c == '\x60' then .template :: frames
      else if c == '\x7b' then .braces :: frames
      else if c == '\x7d' then frames.drop 1 else frames) t

def isNameChar (c : Char) : Bool := isWord c || c == '$'

/-- A variable is used: its name stands in the code outside literals, whole and not as a member. -/
def UsedIn (name t : List Char) : Prop :=
  ∃ pre post, codeOf [] t = pre ++ (name ++ post) ∧
    (∀ c ∈ pre.getLast?, isNameChar c = false ∧ c ≠ '.') ∧ ∀ c ∈ post.head?, isNameChar c = false

/-- A word character on one side only. -/
def edge (before after : Option Char) : Bool := before.any isWord != after.any isWord

/-- The name occurs with an edge of a word at both ends. -/
def WordIn (name t : List Char) : Prop :=
  ∃ pre post, t = pre ++ (name ++ post) ∧ edge pre.getLast? (name ++ post).head? = true ∧
    edge (pre ++ name).getLast? post.head? = true

private theorem matchAt?_word (name : String) (before : Option Char) (i : Nat) (rest : List Char) :
    ((Pattern.wordEdge ++ Pattern.lit name ++ Pattern.wordEdge : Pattern).matchAt?
        ⟨before, i, rest⟩).isSome = true ↔
      edge before rest.head? = true ∧ startsWith rest name.toList = true ∧
        edge (name.toList.getLast?.or before) (rest.drop name.toList.length).head? = true := by
  show ((Pattern.seq (.seq .wordEdge (.lit name)) .wordEdge).matchAt? _).isSome = true ↔ _
  have hedge (p : Cursor) : p.atWordEdge = edge p.before p.rest.head? := rfl
  simp only [Pattern.matchAt?, Pattern.run, Pattern.run_lit, hedge]
  by_cases hfront : edge before rest.head? = true
  · by_cases hstarts : startsWith rest name.toList = true
    · simp [hfront, hstarts]
    · simp [hfront, hstarts]
  · simp [hfront]

/-- The search for a whole word finds what stands between edges of words. -/
theorem test_word_iff (name : String) (t : List Char) :
    (Pattern.wordEdge ++ Pattern.lit name ++ Pattern.wordEdge : Pattern).test t = true ↔
      WordIn name.toList t := by
  rw [Pattern.test, Pattern.find?, Pattern.searchFrom_isSome]
  simp only [matchAt?_word, Option.or_none]
  have hlast (pre : List Char) : name.toList.getLast?.or pre.getLast? =
      (pre ++ name.toList).getLast? := List.getLast?_append.symm
  constructor
  · rintro ⟨pre, rest, rfl, hfront, hstarts, hback⟩
    obtain ⟨post, rfl⟩ := List.isPrefixOf_iff_prefix.1 hstarts
    rw [List.drop_left, hlast] at hback
    exact ⟨pre, post, rfl, hfront, hback⟩
  · rintro ⟨pre, post, rfl, hfront, hback⟩
    refine ⟨pre, _, rfl, hfront, startsWith_append_self _ _, ?_⟩
    rw [List.drop_left, hlast]
    exact hback

/-! ### Labels as operands -/

/-- What a label can be: a string or a whole number. -/
inductive IsLabel : Json → Prop where
  | str (s : String) : IsLabel (.str s)
  | int (n : Int) : IsLabel (.num (.int n))

theorem IsLabel.beq_iff {v w : Json} (hv : IsLabel v) (hw : IsLabel w) : (v == w) = true ↔ v = w := by
  show Json.same v w = true ↔ v = w
  cases hv <;> cases hw
  case str.str s t => simp [Json.same]
  case str.int s n => simp [Json.same]
  case int.str n s => simp [Json.same]
  case int.int m n =>
    have hnum : (Number.int m == Number.int n) = (m == n) := rfl
    simp [Json.same, hnum]

private theorem escapeQuoted_injective {s t : List Char}
    (h : Jinja.escapeQuoted s = Jinja.escapeQuoted t) : s = t := by
  induction s generalizing t with
  | nil =>
    cases t with
    | nil => rfl
    | cons d t =>
      simp only [Jinja.escapeQuoted, List.flatMap_nil, List.flatMap_cons] at h
      split at h <;> simp at h
  | cons c s ih =>
    cases t with
    | nil =>
      simp only [Jinja.escapeQuoted, List.flatMap_nil, List.flatMap_cons] at h
      split at h <;> simp at h
    | cons d t =>
      simp only [Jinja.escapeQuoted, List.flatMap_cons] at h
      -- an escaped character starts with a backslash, and no other one does
      split at h <;> split at h <;>
        simp only [List.cons_append, List.nil_append, List.cons.injEq, true_and] at h
      · rw [h.1, ih h.2]
      · obtain ⟨rfl, -⟩ := h
        simp_all
      · obtain ⟨rfl, -⟩ := h
        simp_all
      · rw [h.1, ih h.2]

private theorem quote_ne_spelled (s : String) (n : Int) : (Jinja.quote s).toList ≠ Number.spelled n := by
  intro h
  rw [Jinja.quote_toList] at h
  rcases Number.mem_spelled (n := n) (c := '\x27') (h ▸ List.mem_cons_self) with hd | hd <;>
    exact absurd hd (by decide)

/-- Different labels are written differently, so the text of a comparison fixes its value. -/
theorem IsLabel.operand_injective {v w : Json} (hv : IsLabel v) (hw : IsLabel w)
    (h : Jinja.operand v = Jinja.operand w) : v = w := by
  cases hv <;> cases hw
  case str.str s t =>
    have hl : (Jinja.quote s).toList = (Jinja.quote t).toList := by rw [show Jinja.quote s = _ from h]; rfl
    rw [Jinja.quote_toList, Jinja.quote_toList, List.cons.injEq, List.append_left_inj] at hl
    rw [String.toList_inj.1 (escapeQuoted_injective hl.2)]
  case str.int s n => exact absurd (congrArg String.toList h) (quote_ne_spelled s n)
  case int.str n s => exact absurd (congrArg String.toList h.symm) (quote_ne_spelled s n)
  case int.int m n => rw [Number.spelled_injective (congrArg String.toList h)]

namespace Switch

/-! ### Arms of a switch -/

def listed? (s : Switch) (v : Json) : Option String :=
  (s.cases.find? (·.values.contains v)).map (·.result)

def resultFor (s : Switch) (v : Json) : Option String := (s.listed? v).or s.default

def PlainLabels (s : Switch) : Prop := ∀ c ∈ s.cases, ∀ v ∈ c.values, IsLabel v

def labelled (s : Switch) : List (Json × String) :=
  s.cases.flatMap fun c => c.values.map fun v => (v, c.result)

private theorem find?_labels (values : List Json) (result : String) (v : Json) :
    ((values.map fun w => (w, result)).find? (v == ·.1)).map (·.2) =
      if values.contains v then some result else none := by
  induction values with
  | nil => rfl
  | cons w ws ih =>
    by_cases hw : (v == w) = true
    · simp [hw]
    · rw [List.map_cons, List.find?_cons_of_neg (by simpa using hw), ih]
      simp [hw]

theorem find?_labelled (s : Switch) (v : Json) :
    (s.labelled.find? (v == ·.1)).map (·.2) = s.listed? v := by
  rw [labelled, listed?]
  induction s.cases with
  | nil => rfl
  | cons c rest ih =>
    rw [List.flatMap_cons, List.find?_append, Option.map_or, find?_labels, ih]
    by_cases hc : c.values.contains v = true
    · rw [if_pos hc, List.find?_cons_of_pos (by exact hc)]
      rfl
    · rw [if_neg hc, List.find?_cons_of_neg (by exact hc), Option.none_or]

variable {s : Switch} {classes : String → List String}

private theorem contains_label_iff {vs : List Json} (hvs : ∀ v ∈ vs, IsLabel v) {w : Json}
    (hw : IsLabel w) : vs.contains w = true ↔ w ∈ vs := by
  rw [List.contains_iff_exists_mem_beq]
  constructor
  · rintro ⟨x, hx, he⟩
    rwa [(hw.beq_iff (hvs x hx)).1 he]
  · intro hm
    exact ⟨w, hm, (hw.beq_iff hw).2 rfl⟩

private theorem mem_caseArms {pairs : List (Json × String)} {seen : List Json}
    (hp : ∀ e ∈ pairs, IsLabel e.1) (hs : ∀ v ∈ seen, IsLabel v) {arm : Arm} :
    arm ∈ caseArms s classes seen pairs ↔ ∃ v result,
      arm = ⟨.equals v, classes result, s.subject ++ " === " ++ jsText v⟩ ∧ IsLabel v ∧ v ∉ seen ∧
        (pairs.find? (v == ·.1)).map (·.2) = some result := by
  induction pairs generalizing seen with
  | nil => simp [caseArms]
  | cons e rest ih =>
    obtain ⟨w, r⟩ := e
    have hw : IsLabel w := hp (w, r) (by simp)
    have hrest : ∀ e ∈ rest, IsLabel e.1 := fun e he => hp e (by simp [he])
    rw [caseArms]
    by_cases hin : w ∈ seen
    · rw [if_pos ((contains_label_iff hs hw).2 hin), ih hrest hs]
      refine exists_congr fun v => exists_congr fun result => and_congr_right fun _ =>
        and_congr_right fun hv => and_congr_right fun hnot => ?_
      have hne : ¬ (v == w) = true := by
        rw [hv.beq_iff hw]
        rintro rfl
        exact hnot hin
      rw [List.find?_cons_of_neg (by exact hne)]
    · rw [if_neg (by rwa [contains_label_iff hs hw]), List.mem_cons, ih hrest (by
        intro v hv
        rcases List.mem_append.1 hv with hv | hv
        · exact hs v hv
        · rwa [List.mem_singleton.1 hv])]
      constructor
      · rintro (rfl | ⟨v, result, rfl, hv, hnot, hfind⟩)
        · refine ⟨w, r, rfl, hw, hin, ?_⟩
          rw [List.find?_cons_of_pos (by exact (hw.beq_iff hw).2 rfl)]
          rfl
        · simp only [List.mem_append, List.mem_singleton, not_or] at hnot
          refine ⟨v, result, rfl, hv, hnot.1, ?_⟩
          rw [List.find?_cons_of_neg (by simpa [hv.beq_iff hw] using hnot.2), hfind]
      · rintro ⟨v, result, rfl, hv, hnot, hfind⟩
        by_cases hvw : v = w
        · subst hvw
          rw [List.find?_cons_of_pos (by exact (hw.beq_iff hw).2 rfl)] at hfind
          rw [Option.map_some, Option.some.injEq] at hfind
          subst hfind
          exact .inl rfl
        · rw [List.find?_cons_of_neg (by simpa [hv.beq_iff hw] using hvw)] at hfind
          exact .inr ⟨v, result, rfl, hv, by simp [hnot, hvw], hfind⟩

private def arms (s : Switch) (classes : String → List String) : List Arm :=
  caseArms s classes [] s.labelled ++ match s.default with
    | some d =>
      if (classes d).isEmpty then [] else [(⟨.otherwise, classes d, "default → " ++ d⟩ : Arm)]
    | none => []

private theorem isLabel_of_labelled (h : s.PlainLabels) : ∀ e ∈ s.labelled, IsLabel e.1 := by
  intro e he
  obtain ⟨c, hc, he⟩ := List.mem_flatMap.1 he
  obtain ⟨v, hv, rfl⟩ := List.mem_map.1 he
  exact h c hc v hv

private theorem mem_arms (h : s.PlainLabels) {arm : Arm} :
    arm ∈ arms s classes ↔
      (∃ v result, arm = ⟨.equals v, classes result, s.subject ++ " === " ++ jsText v⟩ ∧
        IsLabel v ∧ s.listed? v = some result) ∨
      ∃ d, s.default = some d ∧ classes d ≠ [] ∧ arm = ⟨.otherwise, classes d, "default → " ++ d⟩ := by
  rw [arms, List.mem_append, mem_caseArms (isLabel_of_labelled h) (by simp)]
  refine or_congr ?_ ?_
  · simp [find?_labelled]
  · cases s.default with
    | none => simp
    | some d => by_cases hd : classes d = [] <;> simp [hd]

private theorem mem_armRules {arm : Arm} {r : ClassRule} (h : r ∈ armRules s arm) :
    r.prop = s.subject ∧ r.trigger = arm.trigger ∧ r.chain = some ("switch:" ++ s.target) ∧
      (r.cssClass ∈ arm.classes ∨ r.cssClass = "") := by
  obtain ⟨c, hc, rfl⟩ := List.mem_map.1 h
  refine ⟨rfl, rfl, rfl, ?_⟩
  split at hc
  · exact .inr (by simpa using hc)
  · exact .inl hc

private theorem exists_armRules (arm : Arm) : ∃ r ∈ armRules s arm, r.trigger = arm.trigger := by
  by_cases he : arm.classes.isEmpty = true
  · exact ⟨_, List.mem_map.2 ⟨"", by simp [he], rfl⟩, rfl⟩
  · obtain ⟨c, hc⟩ := List.exists_mem_of_ne_nil _ (by simpa using he)
    exact ⟨_, List.mem_map.2 ⟨c, by simpa [he] using hc, rfl⟩, rfl⟩

private theorem exists_armRules_of_mem {arm : Arm} {c : String} (hc : c ∈ arm.classes) :
    ∃ r ∈ armRules s arm, r.trigger = arm.trigger ∧ r.cssClass = c := by
  have he : ¬ arm.classes.isEmpty = true := by
    intro he
    simp [List.isEmpty_iff.1 he] at hc
  exact ⟨_, List.mem_map.2 ⟨c, by simpa [he] using hc, rfl⟩, rfl, rfl⟩

/-! ### What the chain appends -/

def test (s : Switch) (v : Json) : String := s.subject ++ " == " ++ Jinja.operand v

private theorem test_inj {v w : Json} (hv : IsLabel v) (hw : IsLabel w) (h : s.test v = s.test w) :
    v = w :=
  hv.operand_injective hw ((String.append_right_inj _).1 h)

open Jinja.ClassList (armCondition InChain)

private theorem inChain_of_mem {rules : List ClassRule} (h : s.PlainLabels)
    (hr : rules = (arms s classes).flatMap (armRules s)) :
    ∀ r ∈ rules, InChain ("switch:" ++ s.target) r := by
  intro r hmem
  obtain ⟨arm, harm, hmem⟩ := List.mem_flatMap.1 (hr ▸ hmem)
  obtain ⟨-, htrigger, hchain, -⟩ := mem_armRules hmem
  refine ⟨hchain, ?_⟩
  rcases (mem_arms h).1 harm with ⟨v, result, rfl, -, -⟩ | ⟨d, -, -, rfl⟩
  · exact .inl ⟨v, htrigger⟩
  · exact .inr htrigger

private theorem armCondition_cases {names : NameMap} (hname : names.resolve s.subject = s.subject)
    (h : s.PlainLabels) {r : ClassRule} (hr : r ∈ (arms s classes).flatMap (armRules s)) :
    (∃ v result, IsLabel v ∧ s.listed? v = some result ∧ armCondition names r = some (s.test v) ∧
      (r.cssClass ∈ classes result ∨ r.cssClass = "")) ∨
    ∃ d, s.default = some d ∧ armCondition names r = none ∧
      (r.cssClass ∈ classes d ∨ r.cssClass = "") := by
  obtain ⟨arm, harm, hr⟩ := List.mem_flatMap.1 hr
  obtain ⟨hprop, htrigger, -, hclass⟩ := mem_armRules hr
  rcases (mem_arms h).1 harm with ⟨v, result, rfl, hv, hl⟩ | ⟨d, hd, -, rfl⟩
  · exact .inl ⟨v, result, hv, hl, by simp [armCondition, htrigger, hprop, hname, test], hclass⟩
  · exact .inr ⟨d, hd, by simp [armCondition, htrigger], hclass⟩

private theorem mem_chain {names : NameMap} (hname : names.resolve s.subject = s.subject)
    (h : s.PlainLabels) {v : Json} (hv : IsLabel v) (c : String) :
    c ∈ (Jinja.ClassList.addRules {} names ((arms s classes).flatMap (armRules s))).appended
        (· == s.test v) ↔
      c ≠ "" ∧ ∃ result, s.resultFor v = some result ∧ c ∈ classes result := by
  rw [Jinja.ClassList.mem_appended_chain (inChain_of_mem h rfl)]
  refine and_congr_right fun hc => ?_
  have rule_of {arm : Arm} (harm : arm ∈ arms s classes) {k : Option String}
      (hk : ∀ r : ClassRule, r.prop = s.subject → r.trigger = arm.trigger → armCondition names r = k)
      (hmem : c ∈ arm.classes) :
      ∃ r ∈ (arms s classes).flatMap (armRules s), armCondition names r = k ∧ r.cssClass = c := by
    obtain ⟨r, hr, htrigger, hclass⟩ := exists_armRules_of_mem (s := s) hmem
    exact ⟨r, List.mem_flatMap.2 ⟨arm, harm, hr⟩, hk r (mem_armRules hr).1 htrigger, hclass⟩
  have hequals (r : ClassRule) (hp : r.prop = s.subject) (ht : r.trigger = .equals v) :
      armCondition names r = some (s.test v) := by
    simp [armCondition, ht, hp, hname, test]
  cases hl : s.listed? v with
  | some result =>
    have harm : (⟨.equals v, classes result, s.subject ++ " === " ++ jsText v⟩ : Arm) ∈
        arms s classes := (mem_arms h).2 (.inl ⟨v, result, rfl, hv, hl⟩)
    simp only [resultFor, hl, Option.some_or, Option.some.injEq, exists_eq_left']
    constructor
    · rintro (⟨r, hr, hk, rfl⟩ | ⟨hno, -⟩)
      · rcases armCondition_cases hname h hr with ⟨w, result', hw, hl', hk', hclass⟩ | ⟨d, -, hk', -⟩
        · rw [hk, Option.some.injEq] at hk'
          obtain rfl := test_inj hv hw hk'
          rw [hl, Option.some.injEq] at hl'
          subst hl'
          exact hclass.resolve_right hc
        · simp [hk] at hk'
      · obtain ⟨r, hr, htrigger⟩ := exists_armRules (s := s)
          (⟨.equals v, classes result, s.subject ++ " === " ++ jsText v⟩ : Arm)
        exact absurd (hequals r (mem_armRules hr).1 htrigger)
          (hno r (List.mem_flatMap.2 ⟨_, harm, hr⟩))
    · intro hmem
      exact .inl (rule_of harm hequals hmem)
  | none =>
    have habsent : ∀ r ∈ (arms s classes).flatMap (armRules s), armCondition names r ≠ some (s.test v) := by
      intro r hr hk
      rcases armCondition_cases hname h hr with ⟨w, result', hw, hl', hk', -⟩ | ⟨d, -, hk', -⟩
      · rw [hk, Option.some.injEq] at hk'
        obtain rfl := test_inj hv hw hk'
        simp [hl] at hl'
      · simp [hk] at hk'
    simp only [resultFor, hl, Option.none_or]
    constructor
    · rintro (⟨r, hr, hk, -⟩ | ⟨-, r, hr, hk, rfl⟩)
      · exact absurd hk (habsent r hr)
      · rcases armCondition_cases hname h hr with ⟨w, result', -, -, hk', -⟩ | ⟨d, hd, -, hclass⟩
        · simp [hk] at hk'
        · exact ⟨d, hd, hclass.resolve_right hc⟩
    · rintro ⟨d, hd, hmem⟩
      have harm : (⟨.otherwise, classes d, "default → " ++ d⟩ : Arm) ∈ arms s classes :=
        (mem_arms h).2 (.inr ⟨d, hd, List.ne_nil_of_mem hmem, rfl⟩)
      exact .inr ⟨habsent, rule_of harm (fun r _ ht => by simp [armCondition, ht]) hmem⟩

/-- For every value of the subject the chain appends the classes of the selected result, but for the
empty name. -/
theorem mem_appended_rules {names : NameMap} (hname : names.resolve s.subject = s.subject)
    (h : s.PlainLabels) (props : List Property) (classCode : Option (List Char))
    (lookup : ClassLookup) (base : List String) {v : Json} (hv : IsLabel v) (c : String) :
    c ∈ (Jinja.ClassList.addRules {} names (s.rules props classCode lookup base)).appended
        (· == s.test v) ↔
      c ≠ "" ∧ ∃ result, s.resultFor v = some result ∧
        c ∈ s.classesOf props classCode lookup base result := by
  have hrules : s.rules props classCode lookup base =
      if (arms s (s.classesOf props classCode lookup base)).all (·.classes.isEmpty) then []
      else (arms s (s.classesOf props classCode lookup base)).flatMap (armRules s) := rfl
  rw [hrules]
  generalize s.classesOf props classCode lookup base = classes
  split
  · rename_i hempty
    -- no arm adds a class, so no result that can be selected does
    have hnone (result : String) (hr : s.resultFor v = some result) : classes result = [] := by
      rw [resultFor, Option.or_eq_some_iff] at hr
      rcases hr with hl | ⟨-, hd⟩
      · exact List.isEmpty_iff.1 (List.all_eq_true.1 hempty _
          ((mem_arms h).2 (.inl ⟨v, result, rfl, hv, hl⟩)))
      · by_cases hne : classes result = []
        · exact hne
        · exact List.isEmpty_iff.1 (List.all_eq_true.1 hempty _
            ((mem_arms h).2 (.inr ⟨result, hd, hne, rfl⟩)))
    constructor
    · intro hmem
      simp [Jinja.ClassList.addRules, Jinja.ClassList.appended] at hmem
    · rintro ⟨-, result, hr, hmem⟩
      simp [hnone result hr] at hmem
  · exact mem_chain hname h hv c

/-! ### The classes of a result -/

def receiver? (s : Switch) (props : List Property) : Option Property :=
  props.find? fun p => match p.value with
    | .expression e => trim e.toList == s.target.toList
    | _ => false

def nothing : List String := ["", "undefined", "null"]

/-- A class belongs to a result: through the property that receives the target, or as one of its words
when the class expression uses the target. Base classes are left out. -/
def Gives (s : Switch) (props : List Property) (classCode : Option (List Char))
    (lookup : ClassLookup) (base : List String) (result c : String) : Prop :=
  result ∉ nothing ∧ c ∉ base ∧
    match s.receiver? props with
    | some p => c ∈ lookup p.name (.str result)
    | none => (∃ t ∈ classCode, UsedIn s.target.toList t) ∧ c ∈ tokens result

/-- The classes found for a result, with the use of the target told by whole words. -/
theorem mem_classesOf (props : List Property) (classCode : Option (List Char))
    (lookup : ClassLookup) (base : List String) (result c : String) :
    c ∈ s.classesOf props classCode lookup base result ↔ result ∉ nothing ∧ c ∉ base ∧
      match s.receiver? props with
      | some p => c ∈ lookup p.name (.str result)
      | none => (∃ t ∈ classCode, WordIn s.target.toList t) ∧ c ∈ tokens result := by
  have hused : (classCode.any fun t =>
      (Pattern.wordEdge ++ Pattern.lit s.target ++ Pattern.wordEdge : Pattern).test t) = true ↔
        ∃ t ∈ classCode, WordIn s.target.toList t := by
    cases classCode with
    | none => simp
    | some t => simp [test_word_iff]
  have hbase : (!base.contains c) = true ↔ c ∉ base := by simp
  have heq : s.classesOf props classCode lookup base result =
      if nothing.contains result then [] else
        (match s.receiver? props with
          | some p => lookup p.name (.str result)
          | none => if (classCode.any fun t =>
              (Pattern.wordEdge ++ Pattern.lit s.target ++ Pattern.wordEdge : Pattern).test t)
            then tokens result else []).filter (!base.contains ·) := rfl
  rw [heq]
  by_cases hn : result ∈ nothing
  · rw [if_pos (List.contains_iff_mem.2 hn)]
    simp [hn]
  · rw [if_neg (mt List.contains_iff_mem.1 hn), List.mem_filter, hbase, and_comm]
    simp only [hn, not_false_eq_true, true_and]
    refine and_congr_right fun _ => ?_
    cases s.receiver? props with
    | some p => exact Iff.rfl
    | none =>
      by_cases hu : ∃ t ∈ classCode, WordIn s.target.toList t
      · simp only [hused.2 hu, if_true, hu, true_and]
      · simp only [hu, false_and, if_neg (mt hused.1 hu), List.not_mem_nil]

/-- The chain of a switch refines it exactly if no selected result has the empty name among its
classes and, where no property receives the target, the word found in the class expression is the
variable itself or no selected result adds a word. -/
theorem chain_refines_switch_iff (s : Switch) {names : NameMap}
    (hname : names.resolve s.subject = s.subject) (h : s.PlainLabels) (props : List Property)
    (classCode : Option (List Char)) (lookup : ClassLookup) (base : List String) :
    (∀ v, IsLabel v → ∀ c,
      c ∈ (Jinja.ClassList.addRules {} names (s.rules props classCode lookup base)).appended
          (· == s.test v) ↔
        ∃ result, s.resultFor v = some result ∧ s.Gives props classCode lookup base result c) ↔
    (∀ v result, IsLabel v → s.resultFor v = some result →
      ¬ s.Gives props classCode lookup base result "") ∧
    (s.receiver? props = none →
      ((∃ t ∈ classCode, WordIn s.target.toList t) ↔ ∃ t ∈ classCode, UsedIn s.target.toList t) ∨
      ∀ v result, IsLabel v → s.resultFor v = some result → result ∉ nothing →
        ∀ c ∈ tokens result, c ∈ base) := by
  have hchain {v : Json} (hv : IsLabel v) (c : String) :=
    mem_appended_rules hname h props classCode lookup base hv c
  constructor
  · intro hrefines
    refine ⟨fun v result hv hr hg => ?_, fun hnone => ?_⟩
    · exact ((hchain hv "").1 ((hrefines v hv "").2 ⟨result, hr, hg⟩)).1 rfl
    · by_cases hsame : (∃ t ∈ classCode, WordIn s.target.toList t) ↔
          ∃ t ∈ classCode, UsedIn s.target.toList t
      · exact .inl hsame
      · refine .inr fun v result hv hr hn c hc => Decidable.byContradiction fun hbase => hsame ?_
        have hiff := (hchain hv c).symm.trans (hrefines v hv c)
        simp only [mem_classesOf, Gives, hnone, hr, Option.some.injEq, exists_eq_left', hn, hbase,
          not_false_eq_true, true_and, hc, and_true, ne_eq, ne_empty_of_mem_tokens hc] at hiff
        exact hiff
  · rintro ⟨hempty, hused⟩ v hv c
    rw [hchain hv c]
    constructor
    · rintro ⟨hc, result, hr, hmem⟩
      obtain ⟨hn, hbase, hclass⟩ := (mem_classesOf props classCode lookup base result c).1 hmem
      refine ⟨result, hr, hn, hbase, ?_⟩
      cases hrec : s.receiver? props with
      | some p => simpa [hrec] using hclass
      | none =>
        rw [hrec] at hclass
        rcases hused hrec with hsame | hall
        · exact ⟨hsame.1 hclass.1, hclass.2⟩
        · exact absurd (hall v result hv hr hn c hclass.2) hbase
    · rintro ⟨result, hr, hg⟩
      have hc : c ≠ "" := by
        rintro rfl
        exact hempty v result hv hr hg
      refine ⟨hc, result, hr, (mem_classesOf props classCode lookup base result c).2 ?_⟩
      obtain ⟨hn, hbase, hclass⟩ := hg
      refine ⟨hn, hbase, ?_⟩
      cases hrec : s.receiver? props with
      | some p => simpa [hrec] using hclass
      | none =>
        rw [hrec] at hclass
        rcases hused hrec with hsame | hall
        · exact ⟨hsame.2 hclass.1, hclass.2⟩
        · exact absurd (hall v result hv hr hn c hclass.2) hbase

/-- A repeated label, a number beside its own text, an absent result and a default. -/
def mixedLabels : Switch :=
  ⟨"kind", "tone", [⟨[.str "a", .num (.int 1)], "x y"⟩, ⟨[.str "a"], "z"⟩,
    ⟨[.str "1"], "undefined"⟩], some "d"⟩

/-- A switch with a number beside its own text, a repeated label and a default. -/
theorem mixedLabels_chain_refines :
    mixedLabels.PlainLabels ∧ ∀ v, IsLabel v → ∀ c,
      c ∈ (Jinja.ClassList.addRules {} {} (mixedLabels.rules [] (some "clsx(tone)".toList)
          noBaseClasses ["y"])).appended (· == mixedLabels.test v) ↔
        ∃ result, mixedLabels.resultFor v = some result ∧
          mixedLabels.Gives [] (some "clsx(tone)".toList) noBaseClasses ["y"] result c := by
  have hplain : mixedLabels.PlainLabels := by
    intro c hc v hv
    simp only [mixedLabels, List.mem_cons, List.not_mem_nil, or_false] at hc
    rcases hc with rfl | rfl | rfl <;>
      simp only [List.mem_cons, List.not_mem_nil, or_false] at hv
    · rcases hv with rfl | rfl
      · exact .str "a"
      · exact .int 1
    · rw [hv]
      exact .str "a"
    · rw [hv]
      exact .str "1"
  refine ⟨hplain, (chain_refines_switch_iff mixedLabels rfl hplain [] _ noBaseClasses ["y"]).2
    ⟨fun v result _ _ hg => ?_, fun _ => .inl (iff_of_true ?_ ?_)⟩⟩
  · exact ne_empty_of_mem_tokens hg.2.2.2 rfl
  · exact ⟨_, rfl, (test_word_iff "tone" _).1 (by decide)⟩
  · exact ⟨_, rfl, "clsx(".toList, ")".toList, by decide, by decide, by decide⟩

/-- A name that ends in `$` is no word, so the chain of its switch is lost. -/
theorem dollar_target_chain_not_refining :
    ¬ ∀ v, IsLabel v → ∀ c,
      c ∈ (Jinja.ClassList.addRules {} {} ((⟨"kind", "tone$", [⟨[.str "a"], "x"⟩], none⟩ :
          Switch).rules [] (some "clsx(tone$)".toList) noBaseClasses [])).appended
          (· == "kind == " ++ Jinja.operand v) ↔
        ∃ result, (⟨"kind", "tone$", [⟨[.str "a"], "x"⟩], none⟩ : Switch).resultFor v =
            some result ∧
          (⟨"kind", "tone$", [⟨[.str "a"], "x"⟩], none⟩ : Switch).Gives []
            (some "clsx(tone$)".toList) noBaseClasses [] result c := by
  intro h
  have hused : UsedIn "tone$".toList "clsx(tone$)".toList :=
    ⟨"clsx(".toList, ")".toList, by decide, by decide, by decide⟩
  have hmem := (h (.str "a") (.str "a") "x").2
    ⟨"x", rfl, by decide, by decide, ⟨_, rfl, hused⟩, by decide⟩
  exact absurd hmem (by decide)

end Switch

end JsxToJinja
