import JsxToJinja.Classes.Condition
import JsxToJinja.Proofs.Code.TernaryCut

/-! Identifiers as texts, and texts that dropping `props.` leaves alone. -/
namespace JsxToJinja.Code
open JsxToJinja.Text

theorem isIdentifierChar_of_start {c : Char} (h : isIdentifierStart c = true) :
    isIdentifierChar c = true := by
  simp only [isIdentifierStart, isIdentifierChar, Char.isAlphanum, Bool.or_eq_true] at h ⊢
  rcases h with (h | h) | h <;> simp [h]

theorem isIdentifierChar_of_mem {t : List Char} (h : isIdentifier t = true) {c : Char}
    (hc : c ∈ t) : isIdentifierChar c = true := by
  cases t with
  | nil => cases hc
  | cons d t =>
    simp only [isIdentifier, Bool.and_eq_true, List.all_eq_true] at h
    rcases List.mem_cons.1 hc with rfl | hc
    · exact isIdentifierChar_of_start h.1
    · exact h.2 c hc

theorem ne_nil_of_isIdentifier {t : List Char} (h : isIdentifier t = true) : t ≠ [] := by
  rintro rfl
  cases h

theorem isAlpha_iff (c : Char) :
    c.isAlpha = true ↔ (65 ≤ c.toNat ∧ c.toNat ≤ 90) ∨ (97 ≤ c.toNat ∧ c.toNat ≤ 122) := by
  have h : c.isAlpha = (decide (c.val ≥ 'A'.val ∧ c.val ≤ 'Z'.val) ||
      (decide (c.val ≥ 'a'.val) && decide (c.val ≤ 'z'.val))) := rfl
  simp only [h, Bool.or_eq_true, Bool.and_eq_true, decide_eq_true_eq]
  exact Iff.rfl

/-- The codes of the characters that a name may hold. -/
theorem toNat_of_isIdentifierChar {c : Char} (h : isIdentifierChar c = true) :
    (65 ≤ c.toNat ∧ c.toNat ≤ 90) ∨ (97 ≤ c.toNat ∧ c.toNat ≤ 122) ∨
      (48 ≤ c.toNat ∧ c.toNat ≤ 57) ∨ c.toNat = 95 ∨ c.toNat = 36 := by
  simp only [isIdentifierChar, Char.isAlphanum, Char.isDigit, Bool.or_eq_true, isAlpha_iff,
    Bool.and_eq_true, decide_eq_true_eq, beq_iff_eq] at h
  have hval : c.toNat = c.val.toNat := rfl
  rcases h with (((h | h) | ⟨h₁, h₂⟩) | rfl) | rfl
  · exact .inl h
  · exact .inr (.inl h)
  · exact .inr (.inr (.inl ⟨h₁, h₂⟩))
  · exact .inr (.inr (.inr (.inl rfl)))
  · exact .inr (.inr (.inr (.inr rfl)))

/-- A character outside names is none of the characters of a name. -/
theorem ne_of_isIdentifierChar {c d : Char} (hc : isIdentifierChar c = true)
    (hd : isIdentifierChar d = false) : c ≠ d := by
  rintro rfl
  simp [hc] at hd

theorem not_blank_of_isIdentifierChar {c : Char} (h : isIdentifierChar c = true) :
    isBlank c = false := by
  have := toNat_of_isIdentifierChar h
  simp only [isBlank, Bool.or_eq_false_iff, Bool.and_eq_false_iff, decide_eq_false_iff_not,
    beq_eq_false_iff_ne, ne_eq]
  omega

theorem not_start_of_isBlank {c : Char} (h : isBlank c = true) : isIdentifierStart c = false := by
  rw [← Bool.not_eq_true]
  intro hstart
  have := not_blank_of_isIdentifierChar (isIdentifierChar_of_start hstart)
  rw [h] at this
  cases this

theorem isOrdinary_of_isIdentifierChar {c : Char} (h : isIdentifierChar c = true) :
    isOrdinary c = true := by
  simp only [isOrdinary, isQuote, isOpening, isClosing, Bool.and_eq_true, Bool.not_eq_true',
    Bool.or_eq_false_iff, beq_eq_false_iff_ne]
  and_intros <;> exact ne_of_isIdentifierChar h (by decide)

theorem sealed_of_nameChars {avoid t : List Char} (h : ∀ c ∈ t, isIdentifierChar c = true)
    (ha : ∀ d ∈ avoid, isIdentifierChar d = false) : Sealed avoid t := by
  apply sealed_of_ordinary
  intro c hc
  refine ⟨fun hm => ?_, isOrdinary_of_isIdentifierChar (h c hc)⟩
  exact absurd (h c hc) (by simp [ha c hm])

theorem trimmed_of_isIdentifier {t : List Char} (h : isIdentifier t = true) : Trimmed t :=
  trimmed_of_no_blank fun _ hc => not_blank_of_isIdentifierChar (isIdentifierChar_of_mem h hc)

theorem splitTernary?_of_isIdentifier {t : List Char} (h : isIdentifier t = true) :
    splitTernary? t = none := by
  have hs : Sealed ['?'] t :=
    sealed_of_nameChars (fun _ hc => isIdentifierChar_of_mem h hc) (by decide)
  exact hs.splitTernary?_eq_none (by simp)

/-! ### Dropping `props.` -/

private theorem dropPropsFrom_of_not_infix {t : List Char} (h : ¬ propsHead <:+: t)
    (before : Option Char) : dropPropsFrom 0 before t = t := by
  induction t generalizing before with
  | nil => rfl
  | cons c t ih =>
    have hstart : startsWith (c :: t) propsHead = false := by
      rw [← Bool.not_eq_true, startsWith, List.isPrefixOf_iff_prefix]
      exact fun hp => h hp.isInfix
    rw [dropPropsFrom, if_neg (by simp [hstart]),
      ih fun hi => h (hi.trans (List.suffix_cons c t).isInfix)]

/-- A text in which `props.` does not occur stays as it is. -/
theorem stripProps_of_not_infix {t : List Char} (h : ¬ propsHead <:+: t) : stripProps t = t :=
  dropPropsFrom_of_not_infix h none

theorem not_infix_of_notMem {t : List Char} (h : '.' ∉ t) : ¬ propsHead <:+: t := fun hi =>
  h (hi.mem (by decide))

theorem stripProps_of_isIdentifier {t : List Char} (h : isIdentifier t = true) :
    stripProps t = t :=
  stripProps_of_not_infix (not_infix_of_notMem fun hm =>
    absurd (isIdentifierChar_of_mem h hm) (by decide))

/-- The name of a property loses `props.` in front of it. -/
theorem stripProps_props {t : List Char} (h : isIdentifier t = true) :
    stripProps (propsHead ++ t) = t := by
  have hdot : '.' ∉ t := fun hm => absurd (isIdentifierChar_of_mem h hm) (by decide)
  have hstart : startsWith (propsHead ++ t) propsHead = true := startsWith_append_self _ _
  have hhead : propsHead ++ t = 'p' :: 'r' :: 'o' :: 'p' :: 's' :: '.' :: t := rfl
  rw [hhead] at hstart ⊢
  rw [stripProps, dropPropsFrom, if_pos (by simp [hstart])]
  exact dropPropsFrom_of_not_infix (not_infix_of_notMem hdot) _

/-- An occurrence does not reach over a character it does not hold. -/
theorem infix_append_cons {n a b : List Char} {c : Char} (hc : c ∉ n) (h : n <:+: a ++ c :: b) :
    n <:+: a ∨ n <:+: b := by
  have hpre {a : List Char} (h : n <+: a ++ c :: b) : n <+: a := by
    have hone : a ++ [c] <+: a ++ c :: b := ⟨b, by simp⟩
    rcases List.prefix_or_prefix_of_prefix h hone with h | h
    · rcases List.prefix_concat_iff.1 h with rfl | h
      · exact absurd (by simp) hc
      · exact h
    · exact absurd (h.mem (by simp)) hc
  induction a with
  | nil =>
    rcases List.infix_cons_iff.1 h with h | h
    · exact .inl (hpre h).isInfix
    · exact .inr h
  | cons d a ih =>
    rcases List.infix_cons_iff.1 h with h | h
    · exact .inl (hpre h).isInfix
    · exact (ih h).imp (·.trans (List.suffix_cons d a).isInfix) id

end JsxToJinja.Code
