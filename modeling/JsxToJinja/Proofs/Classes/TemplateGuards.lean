import Mathlib.Data.List.Basic
import JsxToJinja.Proofs.Classes.ExtractedClasses
import JsxToJinja.Proofs.Classes.TemplateLiterals

/-! Template literals under a condition, filled in with the values of an enumeration: inequalities on
the name leave values out, and what else is joined by `&&` guards every value. -/
namespace JsxToJinja
open JsxToJinja.Text JsxToJinja.Code

namespace Code.Expression

def conjuncts : Expression → List Expression
  | join .conj a b => a.conjuncts ++ b.conjuncts
  | e => [e]

def excluded? (x : String) (e : Expression) : Option String :=
  (e.compared? true).bind fun (y, l) => if y == x then some (literalKey l) else none

theorem excluded?_eq_some {x w : String} {e : Expression} :
    e.excluded? x = some w ↔ ∃ l, e = .compare true x l ∧ w = literalKey l := by
  constructor
  · intro h
    obtain ⟨⟨y, l⟩, hc, h⟩ := Option.bind_eq_some_iff.1 h
    dsimp only at h
    split at h
    · rename_i hy
      cases h
      rw [beq_iff_eq] at hy
      exact ⟨l, hy ▸ eq_of_compared? hc, rfl⟩
    · cases h
  · rintro ⟨l, rfl, rfl⟩
    simp [excluded?, compared?]

theorem mem_conjuncts_joined {k : Nat} {first : Piece k} {rest : List (Piece k)} {p : Piece k}
    {e : Expression} (hp : p ∈ first :: rest) (he : e ∈ p.expr.conjuncts) :
    e ∈ (joined .conj first rest).conjuncts := by
  have hrun (qs : List (Piece k)) (c : Expression)
      (h : e ∈ c.conjuncts ∨ ∃ q ∈ qs, e ∈ q.expr.conjuncts) :
      e ∈ (qs.foldl (fun c q => .join .conj c q.expr) c).conjuncts := by
    induction qs generalizing c with
    | nil => simpa using h
    | cons q qs ih => exact ih _ (by simpa [conjuncts, or_assoc] using h)
  refine hrun rest first.expr ?_
  rcases List.mem_cons.1 hp with rfl | hp
  · exact .inl he
  · exact .inr ⟨p, hp, he⟩

end Code.Expression

/-- A condition that is no disjunction is cut into the operands of its `&&`. -/
theorem Code.Reads.exists_operands {c : Expression} {t : List Char} (h : Reads 0 c t)
    (hc : c.isCondition = true) (hor : ∀ a b, c ≠ .join .disj a b) :
    ∃ (first : Piece (Junction.conj.level + 1)) (rest : List (Piece (Junction.conj.level + 1))),
      c = joined .conj first rest ∧
        splitTopLevel (stripOuterParens t) "&&".toList = (first :: rest).map Piece.text := by
  obtain ⟨hr, hg, -⟩ := h.strip
  generalize stripOuterParens t = s at hr hg
  cases hr.view hg with
  | cond he => simp [he, Expression.isCondition] at hc
  | @chain j first rest hne he _ _ _ _ hsplit =>
    cases j with
    | conj => exact ⟨first, rest, he, hsplit⟩
    | disj =>
      obtain ⟨init, last, rfl⟩ := (List.eq_nil_or_concat rest).resolve_left hne
      exact absurd he (by simpa [joined] using hor _ _)
  | whole _ _ _ hw _ =>
    let only : Piece (Junction.conj.level + 1) := ⟨c, [], s, [], blank_nil, blank_nil, hw⟩
    have hcut := splitTopLevel_chainText (j := .conj) [only]
    have htext : chainText .conj [only] = s := by
      simp [chainText, Piece.raw, only, List.intercalate]
    rw [htext] at hcut
    exact ⟨only, [], rfl, hcut⟩

/-! ### Guards -/

abbrev Operands := List (Piece (Junction.conj.level + 1))

def excludedBy (x : String) (ps : Operands) : List String := ps.filterMap fun p => p.expr.excluded? x

/-- Operands that leave no value of the name out. -/
def kept (x : String) (ps : Operands) : Operands := ps.filter fun p => (p.expr.excluded? x).isNone

def guardCode (ps : Operands) : Option String :=
  if ps.isEmpty then none else some (String.ofList (" && ".toList.intercalate (ps.map Piece.text)))

/-- A condition, or none, with its text. -/
inductive Filed : Option Expression → Option (List Char) → Prop where
  | alone : Filed none none
  | under {c : Expression} {t : List Char} : Reads 0 c t → c.isCondition = true →
      ¬ propsHead <:+: t → Filed (some c) (some t)

/-- A guard is split into the values it excludes and the operands that are left, by the operands
alone. -/
theorem templateGuard_eq {x : String} {ps : Operands} {t : List Char}
    (hp : ¬ propsHead <:+: t) (hc : ∀ p ∈ ps, p.expr.isCondition = true)
    (hsplit : splitTopLevel (stripOuterParens t) "&&".toList = ps.map Piece.text) :
    templateGuard (some t) x = (excludedBy x ps, guardCode (kept x ps)) := by
  let excluded (part : List Char) : Option String :=
    (inequality? part).bind fun (y, l) => if y == x then some (literalKey l) else none
  have hone : ∀ p ∈ ps, excluded p.text = p.expr.excluded? x := by
    intro p hmem
    simp only [excluded, (p.reads.compared?_eq (hc p hmem)).1, Expression.excluded?]
  have hout : (ps.map Piece.text).filterMap excluded = excludedBy x ps := by
    rw [List.filterMap_map]
    exact List.filterMap_congr hone
  have hrest : (ps.map Piece.text).filter (fun r => (excluded r).isNone) = (kept x ps).map Piece.text := by
    rw [List.filter_map]
    exact congrArg _ (List.filter_congr fun p hmem => by simp [hone p hmem])
  have hguard : templateGuard (some t) x = ((ps.map Piece.text).filterMap excluded,
      if ((ps.map Piece.text).filter fun r => (excluded r).isNone).isEmpty then none
      else some (String.ofList (" && ".toList.intercalate
        ((ps.map Piece.text).filter fun r => (excluded r).isNone)))) := by
    rw [templateGuard, stripProps_of_not_infix hp, hsplit]
  rw [hguard, hout, hrest, guardCode, List.isEmpty_map]

/-- A condition that is no disjunction holds when all its operands do. -/
theorem Filed.exists_operands {c : Option Expression} {s : Option (List Char)} (h : Filed c s)
    (hor : ∀ a b, c ≠ some (.join .disj a b)) (x : String) :
    ∃ ps : Operands, templateGuard s x = (excludedBy x ps, guardCode (kept x ps)) ∧
      (∀ env, (∀ e ∈ c, e.truth env = true) ↔ ∀ p ∈ ps, p.expr.truth env = true) ∧
      ∀ p ∈ ps, ∃ e ∈ c, ∀ d ∈ p.expr.conjuncts, d ∈ e.conjuncts := by
  cases h with
  | alone => exact ⟨[], rfl, by simp, by simp⟩
  | under hr hc hp =>
    obtain ⟨first, rest, rfl, hsplit⟩ := hr.exists_operands hc fun a b he => hor a b (by rw [he])
    rw [Expression.isCondition_joined, List.all_eq_true] at hc
    refine ⟨first :: rest, templateGuard_eq hp hc hsplit, fun env => ?_, ?_⟩
    · simp [(truth_joined env first rest).1]
    · exact fun p hmem => ⟨_, rfl, fun d hd => Expression.mem_conjuncts_joined hmem hd⟩

/-! ### Rules for the values -/

def valueTrigger (a : Attribute) (x w : String) (ps : Operands) : Trigger :=
  match guardCode ps with
  | some g => .condition (g ++ " && " ++ (x ++ " === '" ++ w ++ "'"))
  | none => .equals (a.enumOperand w)

def valueRules (attributes : List Attribute) (T : Template) (s : Option (List Char)) :
    List ClassRule :=
  ((ClassExpression.template T.text s).expandTemplates attributes).rules

theorem valueRules_eq {attributes : List Attribute} {T : Template} {s : Option (List Char)}
    {a : Attribute} {ps : Operands} (hp : ¬ propsHead <:+: T.text)
    (ha : enumAttribute? attributes T.name = some a)
    (hg : templateGuard s T.name = (excludedBy T.name ps, guardCode (kept T.name ps))) :
    valueRules attributes T s = (a.enumValues.filter (!(excludedBy T.name ps).contains ·)).map
      fun w => ⟨T.name, valueTrigger a T.name w (kept T.name ps),
        String.ofList (T.front ++ (w.toList ++ T.back)), T.name ++ " === '" ++ w ++ "'", none⟩ := by
  have hrules (r : ClassRule) : (({ rules := [r] } : Extraction).expandTemplates attributes).rules =
      (expandRule attributes r).rules := by
    simp [Extraction.rules_expandTemplates]
  simp only [valueRules, ClassExpression.template, T.templateVariable?_text hp, hg, hrules,
    expandRule, ha, T.fillTemplate_inner]
  rfl

/-- The guard and the comparison with the value read as they stand. -/
theorem holds_valueTrigger {a : Attribute} {x w : String} {ps : Operands} {env : String → Json}
    (hx : isIdentifier x.toList = true) (hword : x ∉ valueWords)
    (hq : ps ≠ [] → a.enumOperand w = .str w ∧ '\\' ∉ w.toList ∧ '\x27' ∉ w.toList) :
    (valueTrigger a x w ps).Holds (CodeHolds env) (env x) ↔
      (∀ p ∈ ps, p.expr.truth env = true) ∧ (env x).strictEquals (a.enumOperand w) = true := by
  cases ps with
  | nil => simp [valueTrigger, guardCode, Trigger.Holds]
  | cons first rest =>
    obtain ⟨hstr, hslash, hquote⟩ := hq (by simp)
    have htest : Reads 3 (.compare false x (.str w))
        (x.toList ++ ([' '] ++ (comparison false ++ ([' '] ++ '\x27' :: (w.toList ++ ['\x27']))))) :=
      .compare (by omega) hx hword (.str (quoted_of_plain (.inl rfl) hslash hquote)) blank_space
        blank_space
    have hread : Reads 2 (.join .conj (joined .conj first rest) (.compare false x (.str w))) _ :=
      .join (j := .conj) (Nat.le_refl 2) (reads_rejoined first rest) htest blank_space blank_space
    have hcode : (String.ofList (" && ".toList.intercalate ((first :: rest).map Piece.text)) ++
        " && " ++ (x ++ " === '" ++ w ++ "'")).toList =
        " && ".toList.intercalate ((first :: rest).map Piece.text) ++ ([' '] ++
          (Junction.conj.symbol ++ ([' '] ++ (x.toList ++ ([' '] ++ (comparison false ++
            ([' '] ++ '\x27' :: (w.toList ++ ['\x27'])))))))) := by
      simp [Junction.symbol, Junction.char, comparison]
    rw [← hcode] at hread
    have htruth := hread.codeTruth_eq env
    simp only [valueTrigger, guardCode, List.isEmpty_cons, Bool.false_eq_true, if_false, Trigger.Holds,
      CodeHolds, htruth, Expression.truth, (truth_joined env first rest).1, hstr]
    simp

/-- What keeps a literal with the values of its name apart from other readings under a condition. -/
structure Keepable (a : Attribute) (x : String) (c : Option Expression) (s : Option (List Char)) :
    Prop where
  /-- Values are listed as code shows them. -/
  shown : ∀ w ∈ a.enumValues, (a.enumOperand w).shown = w
  /-- The condition stands in front of `&&` as it is. -/
  no_disjunction : ∀ l r, c ≠ some (.join .disj l r)
  /-- A literal that the condition excludes is of the kind of the values, and written like them. -/
  excluded : ∀ e ∈ c, ∀ l, .compare true x l ∈ e.conjuncts →
    ∀ w ∈ a.enumValues, ((a.enumOperand w).strictEquals l = true ↔ w = literalKey l)
  /-- Where something of the condition is left, values are strings that need no escape. -/
  quotable : (templateGuard s x).2.isSome = true →
    ∀ w ∈ a.enumValues, a.enumOperand w = .str w ∧ '\\' ∉ w.toList ∧ '\x27' ∉ w.toList

-- Numbers as they are written, where nothing guards them.
example : Keepable { name := "level", types := [.enum, .number], enumValues := ["1", "20"] } "level"
    none none :=
  ⟨by decide, by simp, by simp, by simp [templateGuard]⟩

theorem isSome_guardCode {ps : Operands} (h : ps ≠ []) : (guardCode ps).isSome = true := by
  cases ps with
  | nil => exact absurd rfl h
  | cons => rfl

section
variable {attributes : List Attribute} {a : Attribute} {T : Template} {c : Option Expression}
  {s : Option (List Char)} {env : String → Json} {v w d : String}

/-- All operands hold when those that are kept do and no inequality leaves the value out. -/
theorem operands_hold_iff {ps : Operands} {x : String}
    (hw : (env x).strictEquals (a.enumOperand w) = true)
    (hk : ∀ p ∈ ps, ∀ l, p.expr = .compare true x l →
      ((a.enumOperand w).strictEquals l = true ↔ w = literalKey l)) :
    (∀ p ∈ ps, p.expr.truth env = true) ↔
      (∀ p ∈ kept x ps, p.expr.truth env = true) ∧ w ∉ excludedBy x ps := by
  have hone : ∀ p ∈ ps, p.expr.truth env = true ↔
      ((p.expr.excluded? x).isNone = true → p.expr.truth env = true) ∧
        p.expr.excluded? x ≠ some w := by
    intro p hp
    cases hx : p.expr.excluded? x with
    | none => simp
    | some u =>
      obtain ⟨l, he, rfl⟩ := Expression.excluded?_eq_some.1 hx
      have hsame : (env x).strictEquals l = true ↔ (a.enumOperand w).strictEquals l = true :=
        ⟨Json.strictEquals_common hw, Json.strictEquals_common (Json.strictEquals_symm hw)⟩
      rw [hk p hp l he] at hsame
      have htrue : (Expression.compare true x l).truth env = true ↔ w ≠ literalKey l := by
        rw [Ne, ← hsame]
        simp [Expression.truth]
      rw [he, htrue]
      exact ⟨fun hne => ⟨by simp, fun hw' => hne (Option.some.inj hw').symm⟩,
        fun hne hw' => hne.2 (by rw [hw'])⟩
  simp only [kept, excludedBy, List.mem_filter, List.mem_filterMap, not_exists, not_and]
  constructor
  · intro h
    exact ⟨fun p hp => h p hp.1, fun p hp => ((hone p hp).1 (h p hp)).2⟩
  · rintro ⟨hrest, hout⟩ p hp
    exact (hone p hp).2 ⟨fun hnone => hrest p ⟨hp, hnone⟩, hout p hp⟩

/-- The rules for the values of a name give the value of the literal where the condition holds, and
nothing elsewhere. -/
theorem holds_valueRules (hp : ¬ propsHead <:+: T.text)
    (ha : enumAttribute? attributes T.name = some a) (h : Filed c s) (hk : Keepable a T.name c s)
    (hv : v ∈ a.enumValues) (henv : env T.name = a.enumOperand v) :
    (∃ r ∈ valueRules attributes T s,
        r.trigger.Holds (CodeHolds env) (env r.prop) ∧ r.cssClass = d) ↔
      (∀ e ∈ c, e.truth env = true) ∧ d = T.value (env T.name) := by
  obtain ⟨ps, hguard, htruth, hin⟩ := h.exists_operands hk.no_disjunction T.name
  have hquote (w : String) (hw : w ∈ a.enumValues) (hne : kept T.name ps ≠ []) :
      a.enumOperand w = .str w ∧ '\\' ∉ w.toList ∧ '\x27' ∉ w.toList :=
    hk.quotable (by rw [hguard]; exact isSome_guardCode hne) w hw
  have hkept (w : String) (hw : w ∈ a.enumValues) : ∀ p ∈ ps, ∀ l, p.expr = .compare true T.name l →
      ((a.enumOperand w).strictEquals l = true ↔ w = literalKey l) := by
    intro p hmem l he
    obtain ⟨e, hec, hconjuncts⟩ := hin p hmem
    exact hk.excluded e hec l (hconjuncts _ (by simp [he, Expression.conjuncts])) w hw
  have hholds (w : String) (hw : w ∈ a.enumValues) :
      ((valueTrigger a T.name w (kept T.name ps)).Holds (CodeHolds env) (env T.name) ∧
        w ∉ excludedBy T.name ps) ↔
      (∀ e ∈ c, e.truth env = true) ∧ (env T.name).strictEquals (a.enumOperand w) = true := by
    rw [holds_valueTrigger T.identifier T.no_word (hquote w hw), htruth]
    constructor
    · rintro ⟨⟨hrest, hsame⟩, hout⟩
      exact ⟨(operands_hold_iff hsame (hkept w hw)).2 ⟨hrest, hout⟩, hsame⟩
    · rintro ⟨hall, hsame⟩
      obtain ⟨hrest, hout⟩ := (operands_hold_iff hsame (hkept w hw)).1 hall
      exact ⟨⟨hrest, hsame⟩, hout⟩
  have hvalue (w : String) (hw : w ∈ a.enumValues)
      (hsame : (env T.name).strictEquals (a.enumOperand w) = true) :
      String.ofList (T.front ++ (w.toList ++ T.back)) = T.value (env T.name) := by
    rw [Template.value, Json.shown_of_strictEquals hsame, hk.shown w hw]
  rw [valueRules_eq hp ha hguard]
  constructor
  · rintro ⟨r, hr, hr', rfl⟩
    obtain ⟨w, hw, rfl⟩ := List.mem_map.1 hr
    obtain ⟨hw, hout⟩ := List.mem_filter.1 hw
    obtain ⟨hall, hsame⟩ := (hholds w hw).1 ⟨hr', by simpa using hout⟩
    exact ⟨hall, hvalue w hw hsame⟩
  · rintro ⟨hall, rfl⟩
    have hsame : (env T.name).strictEquals (a.enumOperand v) = true := by
      rw [henv]
      exact a.enumOperand_equals_self v
    obtain ⟨hr, hout⟩ := (hholds v hv).2 ⟨hall, hsame⟩
    refine ⟨_, List.mem_map.2 ⟨v, List.mem_filter.2 ⟨hv, by simpa using hout⟩, rfl⟩, hr, ?_⟩
    exact hvalue v hv hsame

end

end JsxToJinja
