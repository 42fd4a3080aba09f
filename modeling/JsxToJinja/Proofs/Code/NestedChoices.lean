import JsxToJinja.Proofs.Code.Literals
import JsxToJinja.Proofs.Code.TernaryCut
import JsxToJinja.Proofs.Code.TopLevel

/-! Conditionals within the branches of conditionals, written without parentheses. -/
namespace JsxToJinja.Code
open JsxToJinja.Text

/-- Code without a conditional outside brackets: no colon stands on top, and a question mark on top is
part of `?.` or of `??`. -/
structure IsLeaf (t : List Char) : Prop where
  trimmed : Trimmed t
  ne_nil : t ≠ []
  nested : Sealed [] t
  no_colon : ∀ a b, ¬ OnTop t a ':' b
  chained : ∀ a b, OnTop t a '?' b →
    a.getLast? = some '?' ∨ b.head? = some '.' ∨ b.head? = some '?'

private theorem not_questionAt {pre a b rest : List Char}
    (h : a.getLast? = some '?' ∨ b.head? = some '.' ∨ b.head? = some '?') :
    questionAt (pre ++ (a ++ '?' :: b ++ rest))
      ⟨pre.length + a.length, '?', 0, '?' :: (b ++ rest)⟩ = false := by
  rcases h with h | h | h
  · obtain ⟨a', rfl⟩ := List.getLast?_eq_some_iff.1 h
    have hpos : pre.length + (a' ++ ['?']).length ≠ 0 := by simp
    have hbefore : (pre ++ (a' ++ ['?'] ++ '?' :: b ++ rest))[pre.length + (a' ++ ['?']).length - 1]? =
        some '?' := by simp
    simp only [questionAt, if_neg hpos, hbefore, isTernaryQuestion]
    rfl
  · obtain ⟨b', rfl⟩ := List.head?_eq_some_iff.1 h
    simp [questionAt, isTernaryQuestion]
  · obtain ⟨b', rfl⟩ := List.head?_eq_some_iff.1 h
    simp [questionAt, isTernaryQuestion]

/-- The marks of a properly nested text say whether it is a leaf. -/
theorem isLeaf_of_marks {t : List Char} (htrim : Trimmed t) (hne : t ≠ []) (hs : Sealed [] t)
    (hmarks : ∀ m ∈ marks t, m.depth = 0 → m.char ≠ ':' ∧ questionAt t m = false) : IsLeaf t := by
  refine ⟨htrim, hne, hs, fun a b hon => ?_, fun a b hon => ?_⟩
  · exact (hmarks _ (hon.mem_marks (by decide)) rfl).1 rfl
  · have hnot := (hmarks _ (hon.mem_marks (by decide)) rfl).2
    simp only [questionAt, isTernaryQuestion, beq_self_eq_true, Bool.true_and,
      Bool.and_eq_false_iff, bne_eq_false_iff_eq] at hnot
    rcases hnot with hbefore | hnext
    · refine .inl ?_
      cases ha : a.length with
      | zero => simp [ha] at hbefore
      | succ n =>
        have hlast : t[n]? = a.getLast? := by
          rw [hon.eq, List.getElem?_append_left (by omega), List.getLast?_eq_getElem?, ha]
          rfl
        simpa [ha, hlast] using hbefore
    · split at hnext
      · rename_i heq
        exact .inr (.inl (by simp [(List.cons.inj heq).2]))
      · rename_i heq
        exact .inr (.inr (by simp [(List.cons.inj heq).2]))
      · cases hnext

namespace IsLeaf
variable {t : List Char}

/-- Scanning a leaf meets neither a question mark nor a colon of a conditional. -/
theorem marksFrom_append (h : IsLeaf t) (pre rest : List Char) : ∃ ms,
    marksFrom .code 0 pre.length (t ++ rest) =
        ms ++ marksFrom .code 0 (pre.length + t.length) rest ∧
      ∀ m ∈ ms, m.index < pre.length + t.length ∧ questionAt (pre ++ (t ++ rest)) m = false ∧
        (m.depth == 0 && m.char == ':') = false := by
  obtain ⟨ms, he, hm⟩ := h.nested.marksFrom_append 0 pre.length rest
  refine ⟨ms, he, fun m hmem => ?_⟩
  have hupper := (hm m hmem).upper
  have hmarks : m ∈ marksFrom .code 0 pre.length (t ++ rest) := he ▸ List.mem_append_left _ hmem
  have ontop {c : Char} (hc : (m.depth == 0 && m.char == c) = true) (ho : isOrdinary c = true) :
      ∃ a b, OnTop t a c b ∧ m = ⟨pre.length + a.length, c, 0, c :: (b ++ rest)⟩ := by
    rw [Bool.and_eq_true, beq_iff_eq, beq_iff_eq] at hc
    obtain ⟨hd, rfl⟩ := hc
    obtain ⟨a, b, hon, hindex, hrest⟩ := h.nested.exists_onTop hmarks hupper hd ho
    exact ⟨a, b, hon, by rw [← hindex, ← hd, ← hrest]⟩
  refine ⟨hupper, ?_, ?_⟩
  · by_cases hq : (m.depth == 0 && m.char == '?') = true
    · obtain ⟨a, b, hon, rfl⟩ := ontop hq (by decide)
      have hnot : questionAt (pre ++ (a ++ '?' :: b ++ rest))
          ⟨pre.length + a.length, '?', 0, '?' :: (b ++ rest)⟩ = false := not_questionAt (h.chained a b hon)
      rwa [← hon.eq] at hnot
    · rw [questionAt, eq_false_of_ne_true hq, Bool.false_and]
  · rw [← Bool.not_eq_true]
    intro hc
    obtain ⟨a, b, hon, -⟩ := ontop hc (by decide)
    exact h.no_colon a b hon

theorem unasked (h : IsLeaf t) : Unasked t := by
  intro pre rest
  obtain ⟨ms, he, hm⟩ := h.marksFrom_append pre rest
  exact ⟨ms, he, fun m hmem => ⟨(hm m hmem).1, (hm m hmem).2.1⟩⟩

theorem paired (h : IsLeaf t) : Paired t := by
  intro pre rest n
  obtain ⟨ms, he, hm⟩ := h.marksFrom_append pre rest
  rw [he]
  exact separatorFrom_append (fun m hmem => (hm m hmem).2) n _

end IsLeaf

/-- Conditionals as a tree. A condition holds no conditional itself. -/
inductive Choice where
  | leaf (text : List Char)
  | cond (condition : List Char) (yes no : Choice)
deriving DecidableEq

namespace Choice

def print : Choice → List Char
  | leaf t => t
  | cond c yes no => c ++ " ? ".toList ++ yes.print ++ " : ".toList ++ no.print

def WellFormed : Choice → Prop
  | leaf t => IsLeaf t
  | cond c yes no => IsLeaf c ∧ yes.WellFormed ∧ no.WellFormed

/-- Takes conditionals apart at most so deep. -/
def ofTextWithin : Nat → List Char → Choice
  | 0, t => leaf t
  | depth + 1, t =>
    match splitTernary? t with
    | some (c, yes, no) => cond c (ofTextWithin depth yes) (ofTextWithin depth no)
    | none => leaf t

/-- The tree of a text. Branches are shorter than the whole, so its depth is at most its length. -/
def ofText (t : List Char) : Choice := ofTextWithin t.length t

theorem print_cond (c : List Char) (yes no : Choice) :
    (cond c yes no).print =
      (c ++ [' ']) ++ '?' :: ((' ' :: (yes.print ++ [' '])) ++ ':' :: (' ' :: no.print)) := by
  simp [print]

namespace WellFormed
variable {t : Choice}

/-- A printed choice is not empty and has no blank at its ends. -/
theorem trimmed_print (h : t.WellFormed) : Trimmed t.print ∧ t.print ≠ [] := by
  induction t with
  | leaf t => exact ⟨IsLeaf.trimmed h, IsLeaf.ne_nil h⟩
  | cond c yes no _ ihn =>
    obtain ⟨hc, -, hno⟩ := h
    obtain ⟨htrim, hne⟩ := ihn hno
    refine ⟨?_, by simp [print]⟩
    rw [print, List.append_assoc, List.append_assoc, List.append_assoc]
    simpa using hc.trimmed.between htrim hc.ne_nil hne (" ? ".toList ++ (yes.print ++ " : ".toList))

private theorem sealed_space : Sealed ['?', ':'] [' '] := sealed_of_blank blank_space (by decide)

private theorem paired_padded {x : List Char} (h : Paired x) : Paired (' ' :: (x ++ [' '])) := by
  have hspace : Paired [' '] := sealed_space.paired (by simp) (by simp)
  exact hspace.append (h.append hspace)

private theorem endsPlain_space (c : List Char) : EndsPlain (c ++ [' ']) :=
  ⟨' ', by simp, by decide⟩

private theorem startsPlain_space (x : List Char) : StartsPlain (' ' :: x) :=
  ⟨' ', by simp, by decide, by decide⟩

/-- Every question mark of a printed tree has its colon. -/
theorem paired_print (h : t.WellFormed) : Paired t.print := by
  induction t with
  | leaf t => exact IsLeaf.paired h
  | cond c yes no ihy ihn =>
    obtain ⟨hc, hyes, hno⟩ := h
    have hspace : Paired [' '] := sealed_space.paired (by simp) (by simp)
    rw [print_cond]
    exact (hc.paired.append hspace).conditional (paired_padded (ihy hyes)) (hspace.append (ihn hno))
      (endsPlain_space c) (startsPlain_space _)

theorem splitTernary?_print {c : List Char} {yes no : Choice} (h : (cond c yes no).WellFormed) :
    splitTernary? (cond c yes no).print = some (c, yes.print, no.print) := by
  obtain ⟨hc, hyes, hno⟩ := h
  obtain ⟨hytrim, hyne⟩ := hyes.trimmed_print
  obtain ⟨hntrim, hnne⟩ := hno.trimmed_print
  have hct : trim (c ++ [' ']) = c := trim_pad blank_nil hc.trimmed blank_space
  have hyt : trim (' ' :: (yes.print ++ [' '])) = yes.print := trim_pad blank_space hytrim blank_space
  have hnt : trim (' ' :: no.print) = no.print := by
    simpa using trim_pad blank_space hntrim blank_nil
  have hspace : Unasked [' '] := sealed_space.unasked (by simp)
  have hsplit := (hc.unasked.append hspace).splitTernary?_conditional (y := ' ' :: no.print)
    (paired_padded hyes.paired_print) (endsPlain_space c) (startsPlain_space _)
    (by rw [hct]; exact hc.ne_nil) (by rw [hyt]; exact hyne) (by rw [hnt]; exact hnne)
  rwa [← print_cond, hct, hyt, hnt] at hsplit

/-- Reading a printed choice gives it back, by induction on the choice; only enough steps are asked
for. -/
theorem ofTextWithin_print (h : t.WellFormed) {n : Nat} (hn : t.print.length ≤ n) :
    ofTextWithin n t.print = t := by
  induction t generalizing n with
  | leaf t =>
    cases n with
    | zero => rfl
    | succ n => rw [print, ofTextWithin, (IsLeaf.unasked h).splitTernary?_eq_none]
  | cond c yes no ihy ihn =>
    obtain ⟨-, hyes, hno⟩ := id h
    rw [print_cond] at hn
    simp only [List.length_append, List.length_cons, List.length_nil] at hn
    cases n with
    | zero => omega
    | succ n =>
      rw [ofTextWithin, h.splitTernary?_print]
      show cond c (ofTextWithin n yes.print) (ofTextWithin n no.print) = cond c yes no
      rw [ihy hyes (by omega), ihn hno (by omega)]

end WellFormed

/-- A printed conditional comes apart into its condition and its printed branches, a leaf does not
come apart, and so the text gives the tree back. -/
theorem print_comes_apart {t : Choice} (h : t.WellFormed) :
    (match t with
      | leaf s => splitTernary? s = none
      | cond c yes no => splitTernary? t.print = some (c, yes.print, no.print)) ∧
      ofText t.print = t := by
  refine ⟨?_, h.ofTextWithin_print (Nat.le_refl _)⟩
  cases t with
  | leaf s => exact (IsLeaf.unasked h).splitTernary?_eq_none
  | cond c yes no => exact h.splitTernary?_print

/-- Conditionals in both branches, beside a chain, a default, an object and a literal that looks like a
conditional. -/
def nestedExample : Choice :=
  cond "items?.length".toList
    (cond "size ?? 1".toList (leaf "\x7bk: v\x7d".toList) (leaf "b".toList))
    (cond "c".toList (leaf "'? :'".toList) (leaf "e".toList))

/-- A choice in each branch, next to signs that only look like those of a choice. -/
theorem nestedExample_comes_apart :
    nestedExample.WellFormed ∧
      splitTernary? "items?.length ? size ?? 1 ? \x7bk: v\x7d : b : c ? '? :' : e".toList =
        some ("items?.length".toList, "size ?? 1 ? \x7bk: v\x7d : b".toList,
          "c ? '? :' : e".toList) ∧
      ofText nestedExample.print = nestedExample := by
  have plain {t : List Char} (htrim : Trimmed t) (hne : t ≠ []) (ho : ∀ c ∈ t, isOrdinary c = true)
      (hmarks : ∀ m ∈ marks t, m.depth = 0 → m.char ≠ ':' ∧ questionAt t m = false) : IsLeaf t :=
    isLeaf_of_marks htrim hne (sealed_of_ordinary fun c hc => ⟨List.not_mem_nil, ho c hc⟩) hmarks
  have hbraces : Sealed [] "\x7bk: v\x7d".toList :=
    Sealed.bracket (o := '\x7b') (by decide) (sealed_of_ordinary (by decide) : Sealed [] "k: v".toList)
  have hbody : LiteralBody '\x27' "? :".toList := literalBody_of_plain (by decide) (by decide)
  have hliteral : Sealed [] "'? :'".toList := sealed_literal (by decide) hbody
  have hformed : nestedExample.WellFormed := by
    refine ⟨plain ?_ ?_ ?_ ?_, ⟨plain ?_ ?_ ?_ ?_, isLeaf_of_marks ?_ ?_ hbraces ?_, plain ?_ ?_ ?_ ?_⟩,
      plain ?_ ?_ ?_ ?_, isLeaf_of_marks ?_ ?_ hliteral ?_, plain ?_ ?_ ?_ ?_⟩
    all_goals first | decide | exact ⟨by decide, by decide⟩
  have h := print_comes_apart hformed
  exact ⟨hformed, h.1, h.2⟩

end Choice

end JsxToJinja.Code
