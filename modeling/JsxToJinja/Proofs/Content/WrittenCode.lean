import JsxToJinja.Proofs.Content.ItemFields
import JsxToJinja.Proofs.Content.LoopText
import JsxToJinja.Proofs.Content.WrittenMarkup

/-! Markup and the code between its braces as they are written: paths, texts in quotes, elements and
iterations, joined by `&&`, `||`, conditionals and parentheses. -/
namespace JsxToJinja.Content
open JsxToJinja.Text JsxToJinja.Code JsxToJinja.Markup
open JsxToJinja.Qualified (Around)

def padded (around : Around) (t : List Char) : List Char :=
  around.before.chars ++ (t ++ around.after.chars)

/-- A part of markup, an expression, or the operands to the left of the last one. -/
inductive Form where
  | markup (part : Part)
  | code
  | chain (j : Junction)

abbrev Form.Image : Form → Type
  | .markup part => Frame part
  | _ => Unit

inductive Written : Form → Type where
  | closed (tag : Tag true) : Written (.markup .element)
  | paired (tag : Tag false) (inner : Written (.markup .inside)) : Written (.markup .element)
  | nested (e : Written (.markup .element)) : Written (.markup .child)
  | braces (around : Around) (e : Written .code) : Written (.markup .child)
  | last (text : List Char) : Written (.markup .inside)
  | next (text : List Char) (child : Written (.markup .child)) (rest : Written (.markup .inside)) :
    Written (.markup .inside)
  | path (text : List Char) : Written .code
  | quoted (value text : List Char) : Written .code
  | embedded (e : Written (.markup .element)) : Written .code
  | loop (array sign params : List Char) (around : Around) (body : Written .code) : Written .code
  | paren (around : Around) (e : Written .code) : Written .code
  | cond (c : Written .code) (question : Around) (a : Written .code) (colon : Around)
      (b : Written .code) : Written .code
  | join {j : Junction} (left : Written (.chain j)) (around : Around) (last : Written .code) :
    Written .code
  | first {j : Junction} (e : Written .code) : Written (.chain j)
  | more {j : Junction} (left : Written (.chain j)) (around : Around) (e : Written .code) :
    Written (.chain j)

namespace Written

def text : {f : Form} → Written f → List Char
  | _, closed tag => tag.text
  | _, paired tag inner => tag.text ++ (inner.text ++ closingTag tag.opening.name [])
  | _, nested e => e.text
  | _, braces around e => '\x7b' :: (padded around e.text ++ ['\x7d'])
  | _, last t => t
  | _, next t child rest => t ++ (child.text ++ rest.text)
  | _, path t => t
  | _, quoted _ t => t
  | _, embedded e => e.text
  | _, loop array sign params around body =>
    (LoopText.mk array sign params (padded around body.text)).text
  | _, paren around e =>
    '(' :: (around.before.chars ++ (e.text ++ (around.after.chars ++ [')'])))
  | _, cond c question a colon b =>
    c.text ++ (question.before.chars ++ '?' :: (question.after.chars ++
      (a.text ++ (colon.before.chars ++ ':' :: (colon.after.chars ++ b.text)))))
  | _, join (j := j) left around e | _, more (j := j) left around e =>
    left.text ++ (around.before.chars ++ (j.symbol ++ (around.after.chars ++ e.text)))
  | _, first e => e.text

/-- Level of the operator that is met first, that of what stands alone if there is none. -/
def level : {f : Form} → Written f → Nat
  | _, cond _ _ _ _ _ => 0
  | _, join (j := j) _ _ _ | _, more (j := j) _ _ _ | _, first (j := j) _ => j.level
  | _, _ => 5

/-- Texts are inert, given whether the markup stands inside an expression, and operands stand above the
level of their operator. -/
def Fits : {f : Form} → Written f → Bool → Prop
  | _, closed _, _ => True
  | _, paired _ inner, inside => inner.Fits inside
  | _, nested e, inside => e.Fits inside
  | _, braces _ e, _ => e.Fits true
  | _, last t, inside => InertText inside t
  | _, next t child rest, inside => InertText inside t ∧ child.Fits inside ∧ rest.Fits inside
  | _, path t, _ => IsPath t
  | _, quoted v t, _ => Quoted v t
  | _, embedded e, _ => e.Fits true
  | _, loop array sign params _ body, _ =>
    IsPath array ∧ (Blank sign ∨ sign = ['?']) ∧ Sealed ['='] params ∧ body.Fits true
  | _, paren _ e, _ => e.Fits true
  | _, cond c _ a _ b, _ => 1 ≤ c.level ∧ c.Fits true ∧ a.Fits true ∧ b.Fits true
  | _, join (j := j) left _ e, _ | _, more (j := j) left _ e, _ =>
    left.Fits true ∧ j.level < e.level ∧ e.Fits true
  | _, first (j := j) e, _ => j.level < e.level ∧ e.Fits true

def frame : {f : Form} → Written f → f.Image
  | _, closed tag => Frame.closed tag
  | _, paired tag inner => Frame.paired tag inner.frame
  | _, nested e => Frame.nested e.frame
  | _, braces around e => Frame.braces (padded around e.text)
  | _, last t => Frame.last t
  | _, next t child rest => Frame.next t child.frame rest.frame
  | .code, _ => ()
  | .chain _, _ => ()

/-- What holds of all markup whatever the code in it. -/
theorem markup_induction {motive : {part : Part} → Written (.markup part) → Prop}
    (closed : ∀ tag, motive (closed tag)) (paired : ∀ tag inner, motive inner → motive (paired tag inner))
    (nested : ∀ e, motive e → motive (nested e)) (braces : ∀ around e, motive (braces around e))
    (last : ∀ t, motive (last t))
    (next : ∀ t child rest, motive child → motive rest → motive (next t child rest))
    {part : Part} (m : Written (.markup part)) : motive m := by
  have hall {f : Form} (m : Written f) :
      match f, m with
      | .markup _, m => motive m
      | _, _ => True := by
    induction m with
    | closed tag => exact closed tag
    | paired tag inner ih => exact paired tag inner ih
    | nested e ih => exact nested e ih
    | braces around e => exact braces around e
    | last t => exact last t
    | next t child rest ihc ihr => exact next t child rest ihc ihr
    | _ => trivial
  exact hall m

/-- What holds of all operands to the left of the last one. -/
theorem chain_induction {j : Junction} {motive : Written (.chain j) → Prop}
    (first : ∀ e, motive (first e)) (more : ∀ left around e, motive left → motive (more left around e))
    (left : Written (.chain j)) : motive left := by
  have hall {f : Form} (m : Written f) (hf : f = .chain j) : motive (hf ▸ m) := by
    induction m with
    | first e => cases hf; exact first e
    | more left around e ih => cases hf; exact more left around e (ih rfl)
    | _ => cases hf
  exact hall left rfl

theorem print_frame {part : Part} (m : Written (.markup part)) : m.frame.print = m.text := by
  induction m using markup_induction with
  | closed tag => rfl
  | paired tag inner ih => simp only [frame, Frame.print, text, ih]
  | nested e ih => exact ih
  | braces around e => rfl
  | last t => rfl
  | next t child rest ihc ihr => simp only [frame, Frame.print, text, ihc, ihr]

theorem head?_text (e : Written (.markup .element)) : e.text.head? = some '<' :=
  e.print_frame ▸ e.frame.head?_print

theorem edged_text (e : Written (.markup .element)) : Edged e.text := by
  rw [← print_frame]
  exact ⟨⟨'<', e.frame.head?_print, by decide⟩, ⟨'>', e.frame.getLast?_print, by decide⟩⟩

variable {f : Form} {inside : Bool}

/-- Expressions and their operands start and end with what is no blank. -/
theorem Fits.edged {e : Written f} (h : e.Fits inside) (hf : ∀ part, f ≠ .markup part) :
    Edged e.text := by
  induction e generalizing inside with
  | path t => exact IsPath.edged h
  | quoted v t => exact Quoted.edged h
  | embedded e => exact e.edged_text
  | loop array sign params around body => exact LoopText.edged_text h.1
  | paren around e =>
    rw [text, paren_text]
    exact edged_cons_concat (by decide) (by decide) _
  | cond c question a colon b ihc _ ihb =>
    simpa [text] using (ihc h.2.1 (by simp)).between (ihb h.2.2.2 (by simp))
      (question.before.chars ++ '?' :: (question.after.chars ++
        (a.text ++ (colon.before.chars ++ ':' :: colon.after.chars))))
  | join left around e ihl ihe | more left around e ihl ihe =>
    simpa [text] using (ihl h.1 (by simp)).between (ihe h.2.2 (by simp))
      (around.before.chars ++ (_ ++ around.after.chars))
  | first e ih => exact ih h.2 (by simp)
  | _ => exact absurd rfl (hf _)

theorem sealed_padded {avoid t : List Char} (around : Around) (ha : ∀ c ∈ avoid, isSign c = true)
    (ht : Sealed avoid t) : Sealed avoid (padded around t) :=
  (sealed_pad ha around.before.blank).append (ht.append (sealed_pad ha around.after.blank))

/-- An iteration around an expression is the text of one. -/
theorem loopText_fits {array sign params : List Char} {around : Around} {body : Written .code}
    (h : (loop array sign params around body).Fits inside) (hs : Sealed [] body.text) :
    (LoopText.mk array sign params (padded around body.text)).Fits := by
  obtain ⟨harray, hsign, hparams, hbody⟩ := h
  have hedged := hbody.edged (by simp)
  refine ⟨harray, hsign, hparams, sealed_padded around (by simp) hs, ?_⟩
  have htrim : trim (padded around body.text) = body.text :=
    trim_pad around.before.blank hedged.trimmed around.after.blank
  rw [htrim]
  exact hedged.head?_pad_ne blank_nil (by decide) (by decide)

theorem level_markup {part : Part} (m : Written (.markup part)) : m.level = 5 := by
  cases m <;> rfl

theorem level_chain {j : Junction} (left : Written (.chain j)) : left.level = j.level := by
  cases left <;> rfl

/-- What is written is properly nested. Outside brackets and literals it holds nothing that its level
keeps out, and markup holds no operators there. -/
theorem Fits.sealed {e : Written f} (h : e.Fits true) {avoid : List Char} (ha : avoid ⊆ clear e.level)
    (ho : avoid ⊆ operatorChars) : Sealed avoid e.text := by
  have hnone : ([] : List Char) ⊆ operatorChars := List.nil_subset _
  induction e generalizing avoid with
  | closed tag => exact tag.isTag.sealed.mono ho
  | paired tag inner ih =>
    have hinner := ih h (inner.level_markup ▸ ha) ho
    exact (tag.isTag.sealed.mono ho).append
      (hinner.append ((tag.isTag.sealed_closingTag blank_nil).mono ho))
  | nested e ih => exact ih h (e.level_markup ▸ ha) ho
  | braces around e ih =>
    exact .bracket (by decide) (sealed_padded around (by simp) (ih h (List.nil_subset _) hnone))
  | last t => exact (InertText.sealed h rfl).mono ho
  | next t child rest ihc ihr =>
    exact ((h.1.sealed rfl).mono ho).append ((ihc h.2.1 (child.level_markup ▸ ha) ho).append
      (ihr h.2.2 (rest.level_markup ▸ ha) ho))
  | path t => exact IsPath.sealed (fun _ hc => (of_mem_clear (ha hc)).1) h
  | quoted v t => exact Quoted.sealed h
  | embedded e ih => exact ih h (e.level_markup ▸ ha) ho
  | loop array sign params around body ih =>
    exact (loopText_fits h (ih h.2.2.2 (List.nil_subset _) hnone)).sealed
      fun _ hc => (of_mem_clear (ha hc)).1
  | paren around e ih =>
    exact (ih h (List.nil_subset _) hnone).paren around.before.blank around.after.blank
  | cond c question a colon b ihc iha ihb =>
    have hs : ∀ c ∈ avoid, isSign c = true := fun _ hc => (of_mem_clear (ha hc)).1
    have hbelow {l : Nat} : avoid ⊆ clear l := List.Subset.trans ha (clear_subset (Nat.zero_le l))
    have hzero : avoid ⊆ clear 0 := ha
    have hquestion : '?' ∉ avoid := fun hm => absurd (hzero hm) (by decide)
    have hcolon : ':' ∉ avoid := fun hm => absurd (hzero hm) (by decide)
    exact (ihc h.2.1 hbelow ho).append ((sealed_pad hs question.before.blank).append
      (.plain hquestion (by decide) ((sealed_pad hs question.after.blank).append
        ((iha h.2.2.1 hbelow ho).append ((sealed_pad hs colon.before.blank).append
          (.plain hcolon (by decide) ((sealed_pad hs colon.after.blank).append
            (ihb h.2.2.2 hbelow ho))))))))
  | @join j left around e ihl ihe | @more j left around e ihl ihe =>
    have hs : ∀ c ∈ avoid, isSign c = true := fun _ hc => (of_mem_clear (ha hc)).1
    have hsymbol : Sealed avoid j.symbol := by
      have hc : j.char ∉ avoid := fun hm => j.char_notMem_clear (ha hm)
      have hord : isOrdinary j.char = true := by cases j <;> decide
      exact .plain hc hord (.plain hc hord .nil)
    have hleft := ihl h.1 (left.level_chain ▸ ha) ho
    have hlast := ihe h.2.2 (List.Subset.trans ha (clear_subset (Nat.le_of_lt h.2.1))) ho
    exact hleft.append ((sealed_pad hs around.before.blank).append (hsymbol.append
      ((sealed_pad hs around.after.blank).append hlast)))
  | @first j e ih => exact ih h.2 (List.Subset.trans ha (clear_subset (Nat.le_of_lt h.1))) ho

theorem Fits.nests {e : Written f} (h : e.Fits true) : Sealed [] e.text :=
  h.sealed (List.nil_subset _) (List.nil_subset _)

/-- Blanks around an expression between braces go. -/
theorem Fits.trim_padded {e : Written .code} (h : e.Fits inside) (around : Around) :
    trim (padded around e.text) = e.text :=
  trim_pad around.before.blank (h.edged (by simp)).trimmed around.after.blank

/-- Its markup is read as it is written. -/
theorem Fits.frame {part : Part} {m : Written (.markup part)} (h : m.Fits inside) :
    m.frame.Fits inside := by
  induction m using markup_induction generalizing inside with
  | closed tag => exact h
  | paired tag inner ih => exact ih h
  | nested e ih => exact ih h
  | braces around e =>
    have hcode : e.Fits true := h
    have hedged := hcode.edged (by simp)
    have htrim := hcode.trim_padded around
    refine ⟨sealed_padded around (by simp) hcode.nests, ?_, ?_⟩
    · rw [htrim]
      exact hedged.ne_nil
    · have hhead : e.text.head? ≠ some '/' :=
        hedged.head?_pad_ne blank_nil (by decide) (by decide)
      rw [htrim, isRemark, startsWith_of_head hhead, Bool.false_and]
  | last t => exact h
  | next t child rest ihc ihr => exact ⟨h.1, ihc h.2.1, ihr h.2.2⟩

/-! ### Parentheses -/

def core : {f : Form} → Written f → Written f
  | _, paren _ e => e.core
  | _, e => e

/-- What the parentheses around an expression are taken off to. -/
structure Stripped (t : List Char) (e : Written f) : Prop where
  strip : stripOuterParens t = e.text
  fits : e.Fits true
  single : isGroup '(' e.text = false
  within : e.text <:+: t

theorem Fits.stripped {e : Written .code} (h : e.Fits true) (hg : isGroup '(' e.text = false) :
    Stripped e.text e :=
  ⟨stripOuterParens_of_not_group (h.edged (by simp)).trimmed hg, h, hg, List.infix_rfl⟩

/-- The parentheses around an expression are taken off, and what is left is no group. -/
theorem Fits.strip {e : Written f} (h : e.Fits true) (hf : f = .code) : Stripped e.text e.core := by
  induction e with
  | path t => exact Fits.stripped h (isGroup_of_head (IsPath.head?_ne h (by decide)))
  | quoted v t =>
    have hhead : t.head? ≠ some '(' := by simpa using Quoted.head?_ne (d := '(') h (by decide) []
    exact Fits.stripped h (isGroup_of_head hhead)
  | embedded e => exact Fits.stripped h (isGroup_of_head (by simp [text, head?_text]))
  | loop array sign params around body =>
    have harray : Sealed [] array := IsPath.sealed (by simp) h.1
    have hcall : sign ++ (".map(".toList ++
        (LoopText.callback ⟨array, sign, params, padded around body.text⟩ ++ [')'])) ≠ [] := by
      simp
    have hgroup := harray.isGroup_append h.1.edged.ne_nil hcall
    rw [← List.append_assoc] at hgroup
    exact Fits.stripped h hgroup
  | cond c question a colon b =>
    exact Fits.stripped h (h.2.1.nests.isGroup_append (h.2.1.edged (by simp)).ne_nil (by simp))
  | join left around e =>
    have hne : left.text ≠ [] := (h.1.edged (by simp)).ne_nil
    exact Fits.stripped h (h.1.nests.isGroup_append hne (by simp [Junction.symbol]))
  | paren around e ih =>
    have he : e.Fits true := h
    obtain ⟨hstrip, hcore, hgroup, hin⟩ := ih he rfl
    refine ⟨?_, hcore, hgroup, hin.trans ⟨'(' :: around.before.chars, around.after.chars ++ [')'],
      by simp [text]⟩⟩
    rw [text, stripOuterParens_paren he.nests (he.edged (by simp)).trimmed around.before.blank
      around.after.blank]
    exact hstrip
  | _ => cases hf

end Written
end JsxToJinja.Content
