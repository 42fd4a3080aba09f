import JsxToJinja.Proofs.Content.TreeContent
import JsxToJinja.Proofs.Text.Words

/-! Another text in a tree of elements. It changes one literal of the content and nothing else, also
where the element around it stands inside an expression. -/
namespace JsxToJinja
open JsxToJinja.Text JsxToJinja.Code JsxToJinja.Markup

namespace Content

mutual

/-- The same content but for one literal, which says something else. -/
inductive Reworded (s t : String) : Content → Content → Prop where
  | literal : Reworded s t (.literal s) (.literal t)
  | element {u : Usage} {a b : List Content} : RewordedIn s t a b →
      Reworded s t (.element u a) (.element u b)
  | component {u : Usage} {a b : List Content} : RewordedIn s t a b →
      Reworded s t (.component u a) (.component u b)
  | conditional {c : String} {a b : List Content} : RewordedIn s t a b →
      Reworded s t (.conditional c a) (.conditional c b)
  | conditionalComponent {c : String} {u : Usage} {a b : List Content} : RewordedIn s t a b →
      Reworded s t (.conditionalComponent c u a) (.conditionalComponent c u b)
  | whenTrue {c : String} {a b x : Content} : Reworded s t a b →
      Reworded s t (.ternary c a x) (.ternary c b x)
  | whenFalse {c : String} {a b x : Content} : Reworded s t a b →
      Reworded s t (.ternary c x a) (.ternary c x b)
  | branch {c : Option String} {a b : List Content} {before after : List Branch} :
      RewordedIn s t a b →
      Reworded s t (.branches (before ++ .mk c a :: after)) (.branches (before ++ .mk c b :: after))

/-- The same list of content but for one literal. -/
inductive RewordedIn (s t : String) : List Content → List Content → Prop where
  | here {a b : Content} {before after : List Content} : Reworded s t a b →
      RewordedIn s t (before ++ a :: after) (before ++ b :: after)

end

variable {s t : String} {a b : List Content}

theorem RewordedIn.frame (h : RewordedIn s t a b) (before after : List Content) :
    RewordedIn s t (before ++ (a ++ after)) (before ++ (b ++ after)) := by
  cases h with
  | @here x y front back hxy =>
    have hin : RewordedIn s t ((before ++ front) ++ x :: (back ++ after))
        ((before ++ front) ++ y :: (back ++ after)) := .here hxy
    simpa using hin

theorem Reworded.alone {x y : Content} (h : Reworded s t x y) : RewordedIn s t [x] [y] := by
  have hin : RewordedIn s t ([] ++ x :: []) ([] ++ y :: []) := .here h
  exact hin

theorem RewordedIn.branches (h : RewordedIn s t a b) (before after : List Branch) (c : Option String) :
    Reworded s t (.branches (before ++ .mk c a :: after)) (.branches (before ++ .mk c b :: after)) :=
  .branch h

theorem RewordedIn.ne_nil (h : RewordedIn s t a b) : a ≠ [] ∧ b ≠ [] := by
  cases h with
  | here hxy => simp

/-- A single content stays single. -/
theorem RewordedIn.cases_length (h : RewordedIn s t a b) :
    (∃ x y, a = [x] ∧ b = [y] ∧ Reworded s t x y) ∨ (1 < a.length ∧ 1 < b.length) := by
  cases h with
  | @here x y before after hxy =>
    cases before with
    | cons d before =>
      refine .inr ?_
      simp only [List.length_append, List.length_cons]
      omega
    | nil =>
      cases after with
      | nil => exact .inl ⟨x, y, rfl, rfl, hxy⟩
      | cons d after => exact .inr (by simp)

theorem guardedBy_of_long {c : String} {a : List Content} (h : 1 < a.length) :
    guardedBy c a = .conditional c a := by
  apply guardedBy.eq_2
  rintro u children rfl
  simp at h

/-- A text that is reworded in content is reworded under a condition, too. -/
theorem RewordedIn.guardedBy (h : RewordedIn s t a b) (c : String) :
    Reworded s t (guardedBy c a) (guardedBy c b) := by
  obtain ⟨x, y, rfl, rfl, hxy⟩ | ⟨ha, hb⟩ := h.cases_length
  · cases hxy with
    | component hin => exact .conditionalComponent hin
    | _ => exact .conditional h
  · rw [guardedBy_of_long ha, guardedBy_of_long hb]
    exact .conditional h

theorem chosenBy_branches {c : String} {yes no : List Content} (hy : yes ≠ []) (hn : no ≠ [])
    (h : 1 < yes.length ∨ 1 < no.length) :
    chosenBy c yes no = .branches [.mk (some c) yes, .mk none no] := by
  rw [chosenBy, if_neg (by simpa using hn), if_neg (by simpa using hy)]
  rintro a b rfl rfl
  simp at h

theorem RewordedIn.chosenBy_yes (h : RewordedIn s t a b) (c : String) (no : List Content) :
    Reworded s t (chosenBy c a no) (chosenBy c b no) := by
  obtain ⟨ha, hb⟩ := h.ne_nil
  have hbranch : Reworded s t (.branches [.mk (some c) a, .mk none no])
      (.branches [.mk (some c) b, .mk none no]) := h.branches [] _ _
  match no with
  | [] => exact .conditional h
  | [n] =>
    obtain ⟨x, y, rfl, rfl, hxy⟩ | ⟨hla, hlb⟩ := h.cases_length
    · exact .whenTrue hxy
    · rwa [chosenBy_branches ha (by simp) (.inl hla), chosenBy_branches hb (by simp) (.inl hlb)]
  | n :: m :: rest =>
    rwa [chosenBy_branches ha (by simp) (.inr (by simp)),
      chosenBy_branches hb (by simp) (.inr (by simp))]

/-- A text that is reworded in one branch leaves the other branch alone. -/
theorem RewordedIn.chosenBy_no (h : RewordedIn s t a b) (c : String) (yes : List Content) :
    Reworded s t (chosenBy c yes a) (chosenBy c yes b) := by
  obtain ⟨ha, hb⟩ := h.ne_nil
  have hbranch : Reworded s t (.branches [.mk (some c) yes, .mk none a])
      (.branches [.mk (some c) yes, .mk none b]) := h.branches [.mk (some c) yes] _ _
  match yes with
  | [] =>
    have hempty {d : List Content} (hd : d ≠ []) :
        chosenBy c [] d = .conditional ("!(" ++ c ++ ")") d := by
      simp [chosenBy, hd]
    rw [hempty ha, hempty hb]
    exact .conditional h
  | [n] =>
    obtain ⟨x, y, rfl, rfl, hxy⟩ | ⟨hla, hlb⟩ := h.cases_length
    · exact .whenFalse hxy
    · rwa [chosenBy_branches (by simp) ha (.inr hla), chosenBy_branches (by simp) hb (.inr hlb)]
  | n :: m :: rest =>
    rwa [chosenBy_branches (by simp) ha (.inl (by simp)),
      chosenBy_branches (by simp) hb (.inl (by simp))]

/-- A text that is reworded between tags leaves the tag alone. -/
theorem RewordedIn.tagged (h : RewordedIn s t a b) (tag : OpeningTag) :
    RewordedIn s t (tagged tag a) (tagged tag b) := by
  unfold Content.tagged
  split
  · exact h
  · split
    · exact (Reworded.component h).alone
    · exact (Reworded.element h).alone

private theorem blank_of_wordsFrom_eq_nil {word w : List Char} (h : wordsFrom word w = []) :
    word = [] ∧ Blank w := by
  induction w generalizing word with
  | nil =>
    rw [wordsFrom] at h
    split at h
    · rename_i he
      exact ⟨by simpa using he, blank_nil⟩
    · cases h
  | cons c w ih =>
    rw [wordsFrom] at h
    split at h
    · rename_i hc
      split at h
      · rename_i he
        refine ⟨by simpa using he, fun d hd => ?_⟩
        rcases List.mem_cons.1 hd with rfl | hd
        · exact hc
        · exact (ih h).2 d hd
      · cases h
    · cases (ih h).1

theorem ofText_of_not_blank {w : List Char} (h : ¬ Blank w) :
    ofText w = [.literal (String.ofList (collapse w))] := by
  have hne : ¬ (collapse w).isEmpty = true := by
    cases hw : words w with
    | nil => exact absurd (blank_of_wordsFrom_eq_nil hw).2 h
    | cons x xs =>
      have hx := (isToken_of_mem_words (w := x) (t := w) (by simp [hw])).ne_nil
      cases xs <;> simp [collapse, hw, List.intercalate, hx]
  rw [ofText, if_neg hne]

end Content

namespace Markup.Tree
open Content

/-- The same tree but for one text. -/
inductive Replaced (s t : List Char) : {k : Part} → Tree k → Tree k → Prop where
  | paired {tag : Tag false} {a b : Tree .inside} : Replaced s t a b →
      Replaced s t (.paired tag a) (.paired tag b)
  | nested {a b : Tree .element} : Replaced s t a b → Replaced s t (.nested a) (.nested b)
  | guarded {c : ConditionName} {a b : Tree .element} : Replaced s t a b →
      Replaced s t (.guarded c a) (.guarded c b)
  | yes {c : ConditionName} {a b no : Tree .element} : Replaced s t a b →
      Replaced s t (.choice c a no) (.choice c b no)
  | no {c : ConditionName} {yes a b : Tree .element} : Replaced s t a b →
      Replaced s t (.choice c yes a) (.choice c yes b)
  | last : Replaced s t (.last s) (.last t)
  | text {child : Tree .child} {rest : Tree .inside} :
      Replaced s t (.next s child rest) (.next t child rest)
  | child {text : List Char} {a b : Tree .child} {rest : Tree .inside} : Replaced s t a b →
      Replaced s t (.next text a rest) (.next text b rest)
  | rest {text : List Char} {child : Tree .child} {a b : Tree .inside} : Replaced s t a b →
      Replaced s t (.next text child a) (.next text child b)

/-- Another text makes another literal of it. -/
theorem Replaced.content {s t : List Char} {k : Part} {a b : Tree k} (h : Replaced s t a b)
    (hs : ¬ Blank s) (ht : ¬ Blank t) :
    RewordedIn (String.ofList (collapse s)) (String.ofList (collapse t)) a.content b.content := by
  have hliteral : RewordedIn (String.ofList (collapse s)) (String.ofList (collapse t)) (ofText s)
      (ofText t) := by
    rw [ofText_of_not_blank hs, ofText_of_not_blank ht]
    exact Reworded.literal.alone
  induction h with
  | paired _ ih => exact ih.tagged _
  | nested _ ih => exact ih
  | guarded _ ih => exact (ih.guardedBy _).alone
  | yes _ ih => exact (ih.chosenBy_yes _ _).alone
  | no _ ih => exact (ih.chosenBy_no _ _).alone
  | last => exact hliteral
  | text => exact hliteral.frame [] _
  | child _ ih => exact ih.frame _ _
  | @rest text child a b _ ih =>
    have := ih.frame (ofText text ++ child.content) []
    simpa [Tree.content] using this

/-- Text is inert: with another text in its place the written tree is still one element up to the
end, and its content differs in one literal only. -/
theorem replaced_text_changes_one_literal {s t : List Char} {a b : Tree .element}
    (h : Replaced s t a b) (hs : ¬ Blank s) (ht : ¬ Blank t) (ha : a.Inert false)
    (hb : b.Inert false) (preamble : List Char) :
    ∃ e f, parseElement? a.print 0 = some e ∧ e.stop = a.print.length ∧
      parseElement? b.print 0 = some f ∧ f.stop = b.print.length ∧
      RewordedIn (String.ofList (collapse s)) (String.ofList (collapse t))
        (ofRoot e preamble).value (ofRoot f preamble).value ∧
      (ofRoot f preamble).review = (ofRoot e preamble).review := by
  obtain ⟨e, hae, hpe, hse⟩ := ha.parseElement?_print
  obtain ⟨f, hbf, hpf, hsf⟩ := hb.parseElement?_print
  refine ⟨e, f, hpe, hse, hpf, hsf, ?_, ?_⟩
  · rw [ha.ofRoot_print hae, hb.ofRoot_print hbf]
    cases h with
    | paired hin => exact hin.content hs ht
  · rw [ha.ofRoot_print hae, hb.ofRoot_print hbf]

def plainTag (name : List Char) (hn : IsName name) (ha : ∀ c ∈ name.head?, c.isAlpha = true) :
    Tag false :=
  ⟨⟨String.ofList name, [], [], false⟩, _, .named hn ha (.done blank_nil)⟩

def pTag : Tag false := plainTag ['p'] ⟨by decide, by decide⟩ (by decide)

def ulTag : Tag false := plainTag "ul".toList ⟨by decide, by decide⟩ (by decide)

def liTag : Tag false := plainTag "li".toList ⟨by decide, by decide⟩ (by decide)

/-- `<p>{open && <b>…</b>}</p>`. -/
def openNote (text : List Char) : Tree .element :=
  .paired pTag
    (.next [] (.guarded ⟨"open".toList, by decide⟩
      (.paired (plainTag ['b'] ⟨by decide, by decide⟩ (by decide)) (.last text))) (.last []))

theorem replaced_openNote (s t : List Char) : Replaced s t (openNote s) (openNote t) :=
  .paired (.child (.guarded (.paired .last)))

theorem inert_openNote {text : List Char} (h : InertText true text) :
    (openNote text).Inert false := by
  have hempty : InertText false [] := ⟨by simp, by simp⟩
  exact ⟨hempty, h, hempty⟩

/-- Quotes that close may stand in the text. -/
theorem quoted_word_changes_one_literal :
    ∃ e f, parseElement? "<p>\x7bopen && <b>Do not</b>\x7d</p>".toList 0 = some e ∧
      parseElement? "<p>\x7bopen && <b>Do 'not'</b>\x7d</p>".toList 0 = some f ∧
      RewordedIn "Do not" "Do 'not'" (ofRoot e []).value (ofRoot f []).value := by
  have hplain : InertText true "Do not".toList :=
    ⟨by decide, fun _ => sealed_of_ordinary (by decide)⟩
  have hsealed : Sealed operatorChars ("Do ".toList ++ '\x27' :: ("not".toList ++ ['\x27'])) :=
    (sealed_of_ordinary (by decide)).append
      (sealed_literal (by decide) (literalBody_of_plain (by decide) (by decide)))
  have hquoted : InertText true "Do 'not'".toList := ⟨by decide, fun _ => hsealed⟩
  have hword {t : List Char} : ¬ Blank ('D' :: t) := fun h => absurd (h 'D' (by simp)) (by decide)
  obtain ⟨e, f, he, -, hf, -, hin, -⟩ := replaced_text_changes_one_literal
    (replaced_openNote "Do not".toList "Do 'not'".toList) hword hword (inert_openNote hplain)
    (inert_openNote hquoted) []
  exact ⟨e, f, he, hf, hin⟩

/-- An apostrophe in the text opens a literal for the braces around it, and nothing is read. -/
theorem apostrophe_hides_element :
    Replaced "Do not".toList "Don't".toList (openNote "Do not".toList) (openNote "Don't".toList) ∧
      (∀ c ∈ "Don't".toList, c ≠ '<' ∧ c ≠ '\x7b' ∧ c ≠ '\x7d') ∧
      (parseElement? (openNote "Do not".toList).print 0).isSome = true ∧
      parseElement? (openNote "Don't".toList).print 0 = none := by
  refine ⟨replaced_openNote _ _, by decide, by decide, ?_⟩
  rw [← Option.isNone_iff_eq_none]
  decide

end Markup.Tree

end JsxToJinja
