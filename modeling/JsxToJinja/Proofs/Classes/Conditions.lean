import JsxToJinja.Proofs.Code.Readings

/-! The triggers of a condition hold together exactly when the condition is true. An inequality that
stands alone is listed value by value, so it needs the values of its property. -/
namespace JsxToJinja
open JsxToJinja.Text JsxToJinja.Code

namespace Code.Expression

/-- Built from paths and comparisons by `!`, `&&` and `||`. -/
def isCondition : Expression → Bool
  | path _ => true
  | compare _ _ _ => true
  | not e => e.isCondition
  | join _ a b => a.isCondition && b.isCondition
  | _ => false

/-- Property and literal of a comparison by `===` or, where the flag is set, by `!==`. -/
def compared? (negated : Bool) : Expression → Option (String × Json)
  | compare n x l => if n = negated then some (x, l) else none
  | _ => none

/-- Only comparisons are told apart as comparisons. -/
theorem eq_of_compared? {negated : Bool} {e : Expression} {x : String} {l : Json}
    (h : e.compared? negated = some (x, l)) : e = .compare negated x l := by
  match e with
  | compare n y m =>
    rw [compared?] at h
    split at h
    · rename_i hn
      cases h
      rw [hn]
    · cases h

/-- Conditions hold no markup. -/
theorem hasMarkup_of_isCondition {e : Expression} (h : e.isCondition = true) :
    e.hasMarkup = false := by
  induction e with
  | not e ih => exact ih h
  | join j a b iha ihb =>
    simp only [isCondition, Bool.and_eq_true] at h
    simp [hasMarkup, iha h.1, ihb h.2]
  | path | compare => rfl
  | str | markup | absent | cond => cases h

theorem isCondition_joined (j : Junction) {k : Nat} (first : Piece k) (rest : List (Piece k)) :
    (joined j first rest).isCondition = (first :: rest).all (·.expr.isCondition) :=
  joined_all (f := isCondition) (fun _ _ => rfl) first rest

end Code.Expression

def CodeHolds (env : String → Json) (code : String) : Prop := codeTruth env code = true

/-- One of several triggers holds. -/
def AnyHolds (env : String → Json) (triggers : List (String × Trigger)) : Prop :=
  ∃ p ∈ triggers, p.2.Holds (CodeHolds env) (env p.1)

/-! ### Values of an enumeration -/

/-- A value of an enumeration, and its operand, beside a literal of the same kind. Numbers are written
as integers, and only the literal itself, as a whole number, is the same double. -/
inductive Comparable : String → Json → Json → Prop where
  | str {v s : String} : Comparable v (.str v) (.str s)
  | num {v : String} {i : Int} {m n : Number} : v.toList = Number.spelled i →
      (m.asDouble.same n.asDouble = true → n = .int i) → Comparable v (.num m) (.num n)

/-- A property that is compared with a literal holds one of its known values. -/
structure Enumerated (attributes : List Attribute) (env : String → Json) (x : String) (l : Json) :
    Prop where
  holds : ∀ a, enumAttribute? attributes x = some a → ∃ v ∈ a.enumValues, env x = a.enumOperand v
  comparable : ∀ a, enumAttribute? attributes x = some a →
    ∀ v ∈ a.enumValues, Comparable v (a.enumOperand v) l

theorem Attribute.enumOperand_equals_self (a : Attribute) (v : String) :
    (a.enumOperand v).strictEquals (a.enumOperand v) = true := by
  rw [Attribute.enumOperand]
  split
  · split
    · exact Double.same_self _
    · simp [Json.strictEquals]
  · simp [Json.strictEquals]

/-- A numeric operand is the number that the spelled value is read as. -/
theorem parse?_of_enumOperand {a : Attribute} {v : String} {i : Int} {m : Number}
    (hv : v.toList = Number.spelled i) (h : a.enumOperand v = .num m) :
    Number.parse? (Number.spelled i) = some m := by
  have ht : trim (Number.spelled i) = Number.spelled i := by
    refine (trimmed_of_no_blank fun c hc => ?_).trim_eq
    rcases Number.mem_spelled hc with hd | rfl
    · exact not_blank_of_isIdentifierChar (by simp [isIdentifierChar, Char.isAlphanum, hd])
    · decide
  rw [Attribute.enumOperand, hv] at h
  split at h
  · split at h
    · rename_i n hn
      cases h
      simp only [literalValue, ht] at hn
      split at hn
      · cases hn
      · split at hn
        · rename_i k hk
          cases hn
          exact hk
        · cases hn
    · cases h
  · cases h

/-- A value equals a literal exactly when it is written as the key of the literal. -/
theorem strictEquals_enumOperand {a : Attribute} {v : String} {l : Json} {t : List Char}
    (hl : Operand l t) (h : Comparable v (a.enumOperand v) l) :
    (a.enumOperand v).strictEquals l = true ↔ v = literalKey l := by
  generalize ho : a.enumOperand v = o at h
  cases h with
  | str => simp [Json.strictEquals, literalKey]
  | @num i m n hv hd =>
    constructor
    · intro hs
      obtain rfl := hd hs
      rw [← String.toList_inj, hv]
      rfl
    · intro hkey
      cases n with
      | double d => exact absurd (by rw [← hv, hkey]; rfl) (Number.text_double_ne_spelled d i)
      | int j =>
        -- a literal that is read as a whole number fits a word, so the value is read as it, too
        have hij : i = j := Number.spelled_injective (by rw [← hv, hkey]; rfl)
        subst hij
        cases hl with
        | num _ hp _ =>
          obtain ⟨hlo, hhi⟩ := Number.word_of_parse? hp
          have hm := parse?_of_enumOperand hv ho
          rw [Number.parse?_spelled hlo hhi, Option.some.injEq] at hm
          rw [← hm]
          exact Double.same_self _

/-- The other values of a property stand for an inequality. -/
theorem anyHolds_complement {attributes : List Attribute} {env : String → Json} {x : String}
    {l : Json} {t : List Char} {a : Attribute} (hl : Operand l t)
    (h : Enumerated attributes env x l) (ha : enumAttribute? attributes x = some a) :
    AnyHolds env ((a.enumValues.filter (· != literalKey l)).map fun v =>
      (x, .equals (a.enumOperand v))) ↔ (env x).strictEquals l = false := by
  obtain ⟨v, hv, henv⟩ := h.holds a ha
  have hkey {w : String} (hw : w ∈ a.enumValues) :
      (a.enumOperand w).strictEquals l = true ↔ w = literalKey l :=
    strictEquals_enumOperand hl (h.comparable a ha w hw)
  rw [henv, ← Bool.not_eq_true, hkey hv]
  constructor
  · rintro ⟨p, hp, hholds⟩ hvl
    obtain ⟨w, hw, rfl⟩ := List.mem_map.1 hp
    obtain ⟨hw, hne⟩ := List.mem_filter.1 hw
    have hvw : (env x).strictEquals (a.enumOperand w) = true := hholds
    rw [henv] at hvw
    have := (hkey hw).1 (Json.strictEquals_common hvw ((hkey hv).2 hvl))
    simp [this] at hne
  · intro hne
    refine ⟨_, List.mem_map.2 ⟨v, List.mem_filter.2 ⟨hv, by simpa using hne⟩, rfl⟩, ?_⟩
    show (env x).strictEquals (a.enumOperand v) = true
    rw [henv, a.enumOperand_equals_self]

/-! ### Conditions kept as code -/

variable {attributes : List Attribute} {env : String → Json} {triggers : List (String × Trigger)}
  {e : Expression} {t : List Char}

theorem anyHolds_compoundCondition {k : Nat} (h : Reads k e t)
    (hok : compoundCondition t = .ok triggers) : AnyHolds env triggers ↔ e.truth env = true := by
  have hcode : codeTruth env (String.ofList t) = e.truth env :=
    Reads.codeTruth_eq (k := k) (by rwa [String.toList_ofList]) env
  rw [compoundCondition] at hok
  split at hok
  · cases hok
    simp [AnyHolds, Trigger.Holds, CodeHolds, hcode]
  · cases hok

/-! ### Simple conditions -/

/-- A condition that is written as an identifier is one. -/
theorem Code.Reads.path_of_isIdentifier {k : Nat} (h : Reads k e t) (hc : e.isCondition = true)
    (ht : isIdentifier t = true) : e = .path (String.ofList t) := by
  have hout {c : Char} (hn : isIdentifierChar c = false) : c ∉ t := fun hm => by
    simp [isIdentifierChar_of_mem ht hm] at hn
  cases h with
  | path _ _ _ => rw [String.ofList_toList]
  | str | markup | absent | cond => cases hc
  | @compare _ negated => exact absurd (by cases negated <;> simp [comparison]) (hout (c := '=') rfl)
  | @flipped _ negated => exact absurd (by cases negated <;> simp [comparison]) (hout (c := '=') rfl)
  | not => exact absurd (by simp) (hout (c := '!') rfl)
  | @join _ j =>
    have hj : isIdentifierChar j.char = false := by cases j <;> decide
    exact absurd (by simp [Junction.symbol]) (hout hj)
  | paren => exact absurd (by simp) (hout (c := '(') rfl)

theorem negatedProp?_of_head (h : t.head? ≠ some '!') : negatedProp? t = none := by
  have hdrop (n : List Char) : dropHead? ('!' :: n) t = none := by
    simp only [dropHead?, startsWith_of_head h, Bool.false_eq_true, if_false]
  have htwice : dropHead? "!!".toList t = none := hdrop ['!']
  have honce : dropHead? "!".toList t = none := hdrop []
  simp only [negatedProp?, htwice, honce, Option.bind_none, Option.none_or]

/-- What is found behind `!` or `!!` is a property. -/
theorem anyHolds_negatedProp? {p : List Char} {found : String × Trigger} (hp : Blank p)
    (h : Reads 4 e t) (hc : e.isCondition = true) (hf : negatedProp? ('!' :: (p ++ t)) = some found) :
    AnyHolds env [found] ↔ e.truth env = false := by
  rcases Option.or_eq_some_iff.1 hf with htwice | ⟨-, honce⟩
  · obtain ⟨inner, hdrop, hin⟩ := Option.bind_eq_some_iff.1 htwice
    have htext : p ++ t = '!' :: inner := (List.cons.inj (eq_of_dropHead? hdrop)).2
    obtain rfl : p = [] := by
      cases p with
      | nil => rfl
      | cons b p =>
        obtain rfl := (List.cons.inj htext).1
        exact absurd (hp _ List.mem_cons_self) (by decide)
    rw [List.nil_append] at htext
    have hhead : t.head? = some '!' := by simp [htext]
    have hg : isGroup '(' t = false := isGroup_of_head (by simp [htext])
    obtain ⟨e', p', s, rfl, hs, hp', hr⟩ := (h.mono (by omega)).not_of_head hg hhead
    have htrim : trim inner = s := by
      obtain rfl := (List.cons.inj (htext.symm.trans hs)).2
      simpa using trim_pad hp' hr.edged.trimmed blank_nil
    rw [htrim] at hin
    split at hin
    · rename_i hi
      obtain rfl := hr.path_of_isIdentifier hc hi
      cases hin
      simp [AnyHolds, Trigger.Holds, Expression.truth]
    · cases hin
  · obtain ⟨inner, hdrop, hin⟩ := Option.bind_eq_some_iff.1 honce
    obtain rfl : p ++ t = inner := (List.cons.inj (eq_of_dropHead? hdrop)).2
    have hstrip : stripOuterParens (p ++ t) = stripOuterParens t := by
      simpa using stripOuterParens_pad hp h.edged.trimmed blank_nil
    dsimp only at hin
    rw [hstrip] at hin
    split at hin
    · rename_i hi
      obtain rfl := h.strip.1.path_of_isIdentifier hc hi
      cases hin
      simp [AnyHolds, Trigger.Holds, Expression.truth]
    · cases hin

/-- Negations and paths compare nothing. -/
theorem Code.Reads.no_comparison (h : Reads 4 e t) (hc : e.isCondition = true)
    (hg : isGroup '(' t = false) : inequality? t = none ∧ equality? t = none := by
  have hm := Expression.hasMarkup_of_isCondition hc
  refine ⟨inequality?_eq_none h.edged.trimmed hg (h.findTopLevel?_bang hm ['='])
    (h.findTopLevel?_bang hm []), equality?_eq_none h.edged.trimmed hg ?_⟩
  exact h.sealed (by decide) (by simp [hm])

/-- One of the triggers of a plain condition holds just when its code is true. -/
theorem anyHolds_simpleCondition (h : Reads 3 e t) (hg : isGroup '(' t = false)
    (hc : e.isCondition = true)
    (henum : ∀ x l, e = .compare true x l → Enumerated attributes env x l)
    (hok : simpleCondition t attributes = .ok triggers) :
    AnyHolds env triggers ↔ e.truth env = true := by
  have hcompare {negated : Bool} {x : String} {l : Json} {u : List Char} (hl : Operand l u)
      (he : e = .compare negated x l) (hhead : t.head? ≠ some '!') (hi : isIdentifier t = false) :
      AnyHolds env triggers ↔ e.truth env = true := by
    subst he
    obtain ⟨hineq, heq⟩ := h.comparison_eq hg
    simp only [simpleCondition, negatedProp?_of_head hhead, hi, Bool.false_eq_true, if_false, hineq,
      heq] at hok
    cases negated with
    | true =>
      simp only [if_true] at hok
      split at hok
      · cases hok
      · rename_i a ha
        cases hok
        rw [anyHolds_complement hl (henum x l rfl) ha]
        simp [Expression.truth]
    | false =>
      simp only [Bool.false_eq_true, if_false] at hok
      cases hok
      simp [AnyHolds, Trigger.Holds, Expression.truth]
  have hcode (h : Reads 4 e t) (hn : negatedProp? t = none) (hi : isIdentifier t = false) :
      AnyHolds env triggers ↔ e.truth env = true := by
    obtain ⟨hineq, heq⟩ := h.no_comparison hc hg
    simp only [simpleCondition, hn, hi, Bool.false_eq_true, if_false, hineq, heq] at hok
    exact anyHolds_compoundCondition h hok
  have hout {c : Char} (hn : isIdentifierChar c = false) (hm : c ∈ t) : isIdentifier t = false := by
    rw [← Bool.not_eq_true]
    exact fun ht => by simp [isIdentifierChar_of_mem ht hm] at hn
  cases h with
  | str | markup | absent => cases hc
  | @path _ x hk hp hx =>
    have hnot := negatedProp?_of_head (hp.head?_ne (d := '!') (by decide))
    by_cases hi : isIdentifier x.toList = true
    · simp only [simpleCondition, hnot, hi, if_true, String.ofList_toList] at hok
      cases hok
      simp [AnyHolds, Trigger.Holds, Expression.truth]
    · exact hcode (.path (by omega) hp hx) hnot (by simpa using hi)
  | @compare _ negated x l p q u hk hx hw hl hp hq =>
    have heq : '=' ∈ comparison negated := by cases negated <;> decide
    exact hcompare hl rfl (head?_name_ne hx (by decide) _)
      (hout (c := '=') (by decide) (by simp [heq]))
  | @flipped _ negated x l p q u hk hx hw hl hp hq =>
    have heq : '=' ∈ comparison negated := by cases negated <;> decide
    exact hcompare hl rfl (hl.head?_ne (by decide) (by decide) (by decide) _)
      (hout (c := '=') (by decide) (by simp [heq]))
  | @not _ e p s hk hp he =>
    cases hn : negatedProp? ('!' :: (p ++ s)) with
    | some found =>
      simp only [simpleCondition, hn] at hok
      cases hok
      rw [anyHolds_negatedProp? hp he hc hn]
      simp [Expression.truth]
    | none => exact hcode (.not (by omega) hp he) hn (hout (c := '!') (by decide) (by simp))
  | @join _ j _ _ _ _ _ _ hk =>
    have : j.level ≤ 2 := by cases j <;> decide
    omega
  | paren hk he hp hq =>
    rw [isGroup_paren he.nested hp hq] at hg
    cases hg

/-! ### All conditions -/

private theorem not_sealed_of_chain {j : Junction} (h : containsTopLevel t j.symbol = true) :
    ¬ Sealed ['&', '|'] t := by
  intro hs
  have hj : [j.char] ⊆ ['&', '|'] := by cases j <;> decide
  have hnone : containsTopLevel t j.symbol = false :=
    (hs.mono hj).containsTopLevel_eq_false j.cutting [j.char]
  simp [hnone] at h

/-- Only a comparison is found to be one, and it is found by the search for its operator. -/
theorem Code.Reads.compared?_eq {k : Nat} (h : Reads k e t) (hc : e.isCondition = true) :
    inequality? t = e.compared? true ∧ equality? t = e.compared? false := by
  obtain ⟨hr, hg, -⟩ := h.strip
  have hself := stripOuterParens_of_not_group hr.edged.trimmed hg
  have hineq : inequality? t = inequality? (stripOuterParens t) := by
    rw [inequality?, inequality?, hself]
  have heq : equality? t = equality? (stripOuterParens t) := by
    rw [equality?, equality?, hself]
  rw [hineq, heq]
  clear hineq heq
  generalize stripOuterParens t = s at hr hg hself
  have hnot (h : Reads 4 e s) (hn : ∀ b, e.compared? b = none) :
      inequality? s = e.compared? true ∧ equality? s = e.compared? false := by
    rw [hn, hn]
    exact h.no_comparison hc hg
  cases hr.view hg with
  | cond he => simp [he, Expression.isCondition] at hc
  | @chain j first rest hne he _ _ _ htop =>
    have hnone (b : Bool) : e.compared? b = none := by
      obtain ⟨init, last, rfl⟩ := (List.eq_nil_or_concat rest).resolve_left hne
      simp [he, joined, Expression.compared?]
    have hbar := not_sealed_of_chain htop
    rw [hnone, hnone, ← Option.not_isSome_iff_eq_none, ← Option.not_isSome_iff_eq_none,
      Option.isSome_iff_exists, Option.isSome_iff_exists]
    refine ⟨?_, ?_⟩
    · rintro ⟨found, hf⟩
      exact hbar (hself ▸ sealed_of_inequality? hf)
    · rintro ⟨found, hf⟩
      exact hbar (hself ▸ sealed_of_equality? hf)
  | whole _ _ _ hw _ =>
    have hcompare {negated : Bool} {y : String} {m : Json} (he : e = .compare negated y m) :
        inequality? s = e.compared? true ∧ equality? s = e.compared? false := by
      subst he
      obtain ⟨hi, hq⟩ := hw.comparison_eq hg
      rw [hi, hq]
      cases negated <;> exact ⟨rfl, rfl⟩
    cases hw with
    | str | markup | absent => cases hc
    | path hk hp hx => exact hnot (.path (by omega) hp hx) fun _ => rfl
    | compare => exact hcompare rfl
    | flipped => exact hcompare rfl
    | not hk hp he => exact hnot (.not (by omega) hp he) fun _ => rfl
    | @join _ j _ _ _ _ _ _ hk =>
      have : j.level ≤ 2 := by cases j <;> decide
      omega
    | paren hk he hp hq =>
      rw [isGroup_paren he.nested hp hq] at hg
      cases hg

/-- Equalities joined by `||` give one trigger each. -/
theorem anyHolds_equalities {k : Nat} {ps : List (Piece k)} {eqs : List (String × Json)}
    (hc : ∀ p ∈ ps, p.expr.isCondition = true) (h : (ps.map Piece.text).mapM equality? = some eqs) :
    AnyHolds env (eqs.map fun (prop, value) => (prop, .equals value)) ↔
      ps.any (·.expr.truth env) = true := by
  induction ps generalizing eqs with
  | nil =>
    cases h
    simp [AnyHolds]
  | cons p ps ih =>
    rw [List.map_cons, List.mapM_cons] at h
    obtain ⟨⟨x, l⟩, hf, h⟩ := Option.bind_eq_some_iff.1 h
    obtain ⟨rest, hrest, h⟩ := Option.bind_eq_some_iff.1 h
    cases h
    have hcompared : p.expr.compared? false = some (x, l) := by
      rw [← (p.reads.compared?_eq (hc p (by simp))).2, hf]
    have he := Expression.eq_of_compared? hcompared
    have hnext := ih (fun q hq => hc q (by simp [hq])) hrest
    simp only [AnyHolds] at hnext ⊢
    simp only [List.map_cons, List.mem_cons, exists_eq_or_imp, hnext, List.any_cons, Bool.or_eq_true,
      he]
    simp [Trigger.Holds, Expression.truth]

/-- Triggers of a condition hold when it is true, and only then. -/
theorem anyHolds_classifyCondition {k : Nat} (h : Reads k e t) (hc : e.isCondition = true)
    (hp : ¬ propsHead <:+: t)
    (henum : ∀ x l, e = .compare true x l → Enumerated attributes env x l)
    (hok : classifyCondition t attributes = .ok triggers) :
    AnyHolds env triggers ↔ e.truth env = true := by
  obtain ⟨hr, hg, -⟩ := h.strip
  rw [classifyCondition, stripProps_of_not_infix hp] at hok
  generalize stripOuterParens t = s at hr hg hok
  dsimp only at hok
  cases hr.view hg with
  | cond he => simp [he, Expression.isCondition] at hc
  | @chain j first rest _ he _ _ hlow htop hsplit _ =>
    cases j with
    | conj =>
      have hor : containsTopLevel s "||".toList = false := hlow .disj (by decide)
      have hand : containsTopLevel s "&&".toList = true := htop
      rw [if_neg (ne_true_of_eq_false hor), if_pos hand] at hok
      exact anyHolds_compoundCondition hr hok
    | disj =>
      have hor : containsTopLevel s "||".toList = true := htop
      have hcut : splitTopLevel s "||".toList = (first :: rest).map Piece.text := hsplit
      rw [if_pos hor, hcut] at hok
      split at hok
      · rename_i eqs heqs
        split at hok
        · cases hok
          rw [he, Expression.isCondition_joined, List.all_eq_true] at hc
          rw [anyHolds_equalities hc heqs, he, (truth_joined env first rest).2]
        · exact anyHolds_compoundCondition hr hok
      · exact anyHolds_compoundCondition hr hok
  | whole _ _ hnone hw hgroup =>
    have hor : containsTopLevel s "||".toList = false := hnone .disj
    have hand : containsTopLevel s "&&".toList = false := hnone .conj
    rw [if_neg (ne_true_of_eq_false hor), if_neg (ne_true_of_eq_false hand)] at hok
    exact anyHolds_simpleCondition hw hg hc henum hok

end JsxToJinja
