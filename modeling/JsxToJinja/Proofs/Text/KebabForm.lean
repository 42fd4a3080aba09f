import JsxToJinja.Component.Source
import Mathlib.Data.List.Chain

/-! Kebab case as a normal form: words without capitals, joined by single hyphens. A text of this form
is its own kebab case, so spelling a name once more changes neither its tag nor the declaration it
picks. -/
namespace JsxToJinja.Text

/-- No two hyphens in a row. -/
def SingleHyphens (t : List Char) : Prop := t.IsChain fun a b => ¬(a = '-' ∧ b = '-')

instance (t : List Char) : Decidable (SingleHyphens t) := inferInstanceAs (Decidable (List.IsChain _ t))

structure KebabForm (t : List Char) : Prop where
  chars : ∀ c ∈ t, isUppercase c = false ∧ c ≠ '_' ∧ c ≠ ' '
  head : t.head? ≠ some '-'
  last : t.getLast? ≠ some '-'
  single : SingleHyphens t

variable {t : List Char}

/-! ### A text of the form -/

/-- What is written already belongs to the text as well; it comes last character first. -/
theorem kebabFrom_of_form {before : Option Char} {written : List Char}
    (hchars : ∀ c ∈ t, isUppercase c = false ∧ c ≠ '_' ∧ c ≠ ' ')
    (hhead : (written.reverse ++ t).head? ≠ some '-') (hsingle : SingleHyphens (written.reverse ++ t)) :
    kebabFrom before written t = t.reverse ++ written := by
  induction t generalizing before written with
  | nil => rfl
  | cons c t ih =>
    obtain ⟨⟨hlower, hline, hspace⟩, hchars⟩ := List.forall_mem_cons.1 hchars
    have htext : written.reverse ++ c :: t = (c :: written).reverse ++ t := by simp
    have hrest {before : Option Char} :
        kebabFrom before (c :: written) t = (c :: t).reverse ++ written := by
      rw [htext] at hhead hsingle
      rw [ih hchars hhead hsingle]
      simp
    by_cases hdash : c = '-'
    · subst hdash
      have hword : (!written.isEmpty && written.head? != some '-') = true := by
        cases written with
        | nil => simp at hhead
        | cons d written =>
          have hd : d ≠ '-' := by
            rintro rfl
            rw [SingleHyphens, List.reverse_cons, List.append_assoc, List.singleton_append] at hsingle
            have := (List.isChain_append.1 hsingle).2.1
            simp at this
          simpa using hd
      rw [kebabFrom, if_pos (by simp), if_pos hword, hrest]
    · rw [kebabFrom, if_neg (by simp [hline, hspace, hdash]), if_neg (by simp [hlower]), hrest]

theorem KebabForm.kebab_eq (h : KebabForm t) : kebab t = t := by
  have hwritten : kebabFrom none [] t = t.reverse := by
    rw [kebabFrom_of_form h.chars (by simpa using h.head) (by simpa using h.single), List.append_nil]
  have hlast : t.reverse.head? ≠ some '-' := by rw [List.head?_reverse]; exact h.last
  rw [kebab, hwritten, List.dropWhile_beq_eq_self_of_head?_ne hlast, List.reverse_reverse,
    List.dropWhile_beq_eq_self_of_head?_ne h.head]

/-! ### What is written -/

/-- An ASCII capital in lower case is one letter. -/
theorem lowercase_of_ascii {c : Char} (h : c.toNat < 128) (hc : isUppercase c = true) :
    ∃ d, lowercase c = [d] ∧ isUppercase d = false ∧ d ≠ '_' ∧ d ≠ ' ' ∧ d ≠ '-' := by
  have htable : ∀ n < 128, isUppercase (Char.ofNat n) →
      isUppercase (Char.ofNat n).toLower = false ∧ (Char.ofNat n).toLower ≠ '_' ∧
        (Char.ofNat n).toLower ≠ ' ' ∧ (Char.ofNat n).toLower ≠ '-' := by decide
  have hlower := htable c.toNat h
  rw [Char.ofNat_toNat] at hlower
  exact ⟨c.toLower, if_pos h, hlower hc⟩

/-- The result so far, last character first: only its front may be a hyphen. -/
structure Written (w : List Char) : Prop where
  chars : ∀ c ∈ w, isUppercase c = false ∧ c ≠ '_' ∧ c ≠ ' '
  first : w.getLast? ≠ some '-'
  single : SingleHyphens w

theorem written_nil : Written [] := ⟨by simp, by simp, .nil⟩

/-- A letter may come anywhere, a hyphen behind a letter only. -/
theorem Written.push {w : List Char} (h : Written w) {c : Char}
    (hc : isUppercase c = false ∧ c ≠ '_' ∧ c ≠ ' ')
    (hdash : c = '-' → (!w.isEmpty && w.head? != some '-') = true) : Written (c :: w) where
  chars := List.forall_mem_cons.2 ⟨hc, h.chars⟩
  first := by
    cases w with
    | nil => simpa using hdash
    | cons d w => rw [List.getLast?_cons_cons]; exact h.first
  single := by
    refine List.isChain_cons.2 ⟨fun d hd => ?_, h.single⟩
    rintro ⟨rfl, rfl⟩
    simp [Option.mem_def.1 hd] at hdash

/-- Each character keeps the form of the result, so the whole text does. -/
theorem Written.kebabFrom {w : List Char} (h : Written w) (before : Option Char)
    (ht : ∀ c ∈ t, c.toNat < 128) : Written (kebabFrom before w t) := by
  induction t generalizing before w with
  | nil => exact h
  | cons c t ih =>
    obtain ⟨hc, ht⟩ := List.forall_mem_cons.1 ht
    have hhyphen (hword : (!w.isEmpty && w.head? != some '-') = true) : Written ('-' :: w) :=
      h.push (by decide) fun _ => hword
    rw [Text.kebabFrom]
    dsimp only
    split
    · split
      · rename_i hword
        exact ih (hhyphen hword) _ ht
      · exact ih h _ ht
    · rename_i hsign
      simp only [Bool.or_eq_true, beq_iff_eq, not_or] at hsign
      split
      · rename_i hupper
        obtain ⟨d, hd, hlower, hline, hspace, hdash⟩ := lowercase_of_ascii hc hupper
        have hletter {w : List Char} (hw : Written w) : Written ((lowercase c).reverse ++ w) := by
          rw [hd]
          exact hw.push ⟨hlower, hline, hspace⟩ fun he => absurd he hdash
        split
        · rename_i hword
          exact ih (hletter (hhyphen (Bool.and_eq_true_iff.1 hword).1)) _ ht
        · exact ih (hletter h) _ ht
      · rename_i hupper
        exact ih (h.push ⟨by simpa using hupper, hsign.1.1, hsign.1.2⟩ fun he =>
          absurd he hsign.2) _ ht

/-- What is left between the hyphens at the ends has the form of kebab case. -/
theorem Written.form {w : List Char} (h : Written w) :
    KebabForm (((w.dropWhile (· == '-')).reverse).dropWhile (· == '-')) := by
  have hsuffix := List.dropWhile_suffix (l := w) (· == '-')
  have hhead : (w.dropWhile (· == '-')).reverse.head? ≠ some '-' := by
    rw [List.head?_reverse]
    intro hlast
    obtain ⟨u, hu⟩ := hsuffix
    refine h.first ?_
    rw [← hu, List.getLast?_append, hlast]
    rfl
  have hlast : (w.dropWhile (· == '-')).head? ≠ some '-' := by
    intro hd
    have := List.head?_dropWhile_not (· == '-') w
    simp [hd] at this
  rw [List.dropWhile_beq_eq_self_of_head?_ne hhead]
  refine ⟨fun c hc => h.chars c (hsuffix.subset (List.mem_reverse.1 hc)), hhead, ?_, ?_⟩
  · rwa [List.getLast?_reverse]
  · have hchain : SingleHyphens (w.dropWhile (· == '-')) := h.single.suffix hsuffix
    rw [SingleHyphens, List.isChain_reverse]
    exact hchain.imp fun a b hab => fun hba => hab ⟨hba.2, hba.1⟩

theorem kebabForm_kebab (h : ∀ c ∈ t, c.toNat < 128) : KebabForm (kebab t) :=
  (written_nil.kebabFrom none h).form

/-- The ASCII texts that kebab case leaves alone are those of the form. -/
theorem kebab_eq_self_iff (h : ∀ c ∈ t, c.toNat < 128) : kebab t = t ↔ KebabForm t := by
  constructor
  · intro hkebab
    rw [← hkebab]
    exact kebabForm_kebab h
  · exact KebabForm.kebab_eq

end JsxToJinja.Text

namespace JsxToJinja
open JsxToJinja.Text

theorem Source.declaration?_congr {h h' : String} (hh : kebabCase h = kebabCase h')
    (masked : List Char) : declaration? masked (some h) = declaration? masked (some h') := by
  simp only [declaration?, Option.bind_some, hh]

/-- A component read with either hint is the same; only the error that names the hint differs. -/
theorem Source.parse_congr {h h' : String} (hh : kebabCase h = kebabCase h') (text : String)
    (defaults : Option String) :
    (Source.parse text defaults (some h)).toOption =
      (Source.parse text defaults (some h')).toOption := by
  rw [Source.parse, Source.parse, declaration?_congr hh]
  cases declaration? (Markup.mask (Code.stripComments text.toList)) (some h') with
  | none => rfl
  | some d => rfl

variable {name : String}

theorem kebabCase_kebabCase (h : ∀ c ∈ name.toList, c.toNat < 128) :
    kebabCase (kebabCase name) = kebabCase name := by
  rw [kebabCase, kebabCase, String.toList_ofList, (kebabForm_kebab h).kebab_eq]

/-- Under its class name or under the kebab case of it, a component has one tag and one declaration. -/
theorem kebabCase_is_normal_form (h : ∀ c ∈ name.toList, c.toNat < 128) :
    KebabForm (kebabCase name).toList ∧
      kebabCase (kebabCase name) = kebabCase name ∧
      componentTag (kebabCase name) = componentTag name ∧
      (∀ masked, Source.declaration? masked (some (kebabCase name)) =
        Source.declaration? masked (some name)) ∧
      ∀ text defaults, (Source.parse text defaults (some (kebabCase name))).toOption =
        (Source.parse text defaults (some name)).toOption := by
  have hsame := kebabCase_kebabCase h
  refine ⟨?_, hsame, ?_, Source.declaration?_congr hsame, Source.parse_congr hsame⟩
  · rw [kebabCase, String.toList_ofList]
    exact kebabForm_kebab h
  · rw [componentTag, componentTag, hsame]

/-- Acronyms, digits and mixed separators. -/
theorem mixed_name_has_normal_form :
    (∀ c ∈ "HTMLInput__Group -2ndRow_".toList, c.toNat < 128) ∧
      kebabCase "HTMLInput__Group -2ndRow_" = "html-input-group-2nd-row" ∧
      kebabCase "html-input-group-2nd-row" = "html-input-group-2nd-row" := by
  have hname : kebabCase "HTMLInput__Group -2ndRow_" = "html-input-group-2nd-row" := by decide
  have h : ∀ c ∈ "HTMLInput__Group -2ndRow_".toList, c.toNat < 128 := by decide
  refine ⟨h, hname, ?_⟩
  rw [← hname]
  exact (kebabCase_is_normal_form h).2.1

end JsxToJinja
