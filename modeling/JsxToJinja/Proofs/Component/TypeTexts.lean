import JsxToJinja.Proofs.Code.Cuts
import JsxToJinja.Proofs.Component.DeclaredNames
import JsxToJinja.Proofs.Text.Pieces

/-! Texts of types: how lists with blanks around their separators, wrappers with their arguments and
paths are taken apart, and where a type ends as a member. -/
namespace JsxToJinja
open JsxToJinja.Text JsxToJinja.Code

/-! ### Names, lists and wrappers -/

theorem sealed_of_isName {avoid n : List Char} (h : isName n = true)
    (ha : ∀ c ∈ avoid, (isWord c || c == '$') = false) : Sealed avoid n := by
  refine sealed_of_ordinary fun c hc => ⟨fun hm => notMem_of_isName h (ha c hm) hc, ?_⟩
  have hne {d : Char} (hd : (isWord d || d == '$') = false) : (c == d) = false := by
    rw [beq_eq_false_iff_ne]
    rintro rfl
    exact notMem_of_isName h hd hc
  simp only [isOrdinary, isQuote, isOpening, isClosing, Bool.and_eq_true, Bool.not_eq_true',
    Bool.or_eq_false_iff]
  and_intros <;> exact hne (by decide)

/-- A list with a separator between blanks comes apart into its items. -/
theorem splitTopLevel_spaced {avoid : List Char} {c : Char} (hc : Cutting avoid c)
    (ha : ∀ d ∈ avoid, isBlank d = false) {g g' : List Char} (hg : Blank g) (hg' : Blank g')
    {rs : List (List Char)} (h : ∀ r ∈ rs, Sealed avoid r ∧ Trimmed r ∧ r ≠ []) :
    splitTopLevel ((g ++ c :: g').intercalate rs) [c] = rs := by
  have hpieces (pre r : List Char) (rs : List (List Char)) (hp : Blank pre)
      (h : ∀ t ∈ r :: rs, Sealed avoid t ∧ Trimmed t ∧ t ≠ []) :
      ∃ ps, [c].intercalate ps = pre ++ (g ++ c :: g').intercalate (r :: rs) ∧
        ps.map trim = r :: rs ∧ ∀ p ∈ ps, Sealed avoid p := by
    induction rs generalizing pre r with
    | nil =>
      obtain ⟨hs, ht, -⟩ := h r (by simp)
      refine ⟨[pre ++ r], by simp, ?_, ?_⟩
      · have := trim_pad hp ht blank_nil
        rw [List.append_nil] at this
        simp [this]
      · simpa using (sealed_of_blank hp ha).append hs
    | cons s rs ih =>
      obtain ⟨ps, hjoin, htrim, hsealed⟩ := ih g' s hg' fun t ht => h t (List.mem_cons_of_mem _ ht)
      obtain ⟨hs, ht, -⟩ := h r (by simp)
      have hps : ps ≠ [] := by
        rintro rfl
        simp at htrim
      obtain ⟨p, ps, rfl⟩ := List.exists_cons_of_ne_nil hps
      refine ⟨(pre ++ (r ++ g)) :: p :: ps, ?_, ?_, ?_⟩
      · rw [List.intercalate_cons_cons, List.intercalate_cons_cons, hjoin]
        simp
      · rw [List.map_cons, htrim, trim_pad hp ht hg]
      · intro t htm
        rcases List.mem_cons.1 htm with rfl | htm
        · exact (sealed_of_blank hp ha).append (hs.append (sealed_of_blank hg ha))
        · exact hsealed t htm
  cases rs with
  | nil =>
    have hnone : splitTopLevel ([c].intercalate []) [c] = [] :=
      splitTopLevel_intercalate hc (by simp) (by simp)
    exact hnone
  | cons r rs =>
    obtain ⟨ps, hjoin, htrim, hsealed⟩ := hpieces [] r rs blank_nil h
    rw [List.nil_append] at hjoin
    rw [← hjoin, splitTopLevel_intercalate hc (by simp) hsealed, htrim, List.filter_eq_self]
    intro t ht
    simpa using (h t ht).2.2

/-- The last piece has the last character. -/
theorem exists_last_piece {o c : Char} (h : c ≠ o) (t : List Char) :
    ∃ p, (splitOn [o] (t ++ [c])).getLast? = some (p ++ [c]) := by
  by_cases ho : o ∈ t
  · obtain ⟨as, bs, hsplit, hlast⟩ := List.eq_append_cons_of_mem (List.mem_reverse.2 ho)
    have ht : t ++ [c] = bs.reverse ++ o :: (as.reverse ++ [c]) := by
      have := congrArg List.reverse hsplit
      rw [List.reverse_reverse] at this
      simp [this]
    have hrest : o ∉ as.reverse ++ [c] := by simp [hlast, Ne.symm h]
    refine ⟨as.reverse, ?_⟩
    rw [ht, splitOn_append_char, splitOn_plain hrest, List.getLast?_concat]
  · exact ⟨t, by rw [splitOn_plain (by simp [ho, Ne.symm h])]; rfl⟩

theorem trimmed_wrapped {w : List Char} (hw : isName w = true) (inside : List Char) :
    Trimmed (w ++ '<' :: (inside ++ ['>'])) := by
  have hne : w ≠ [] := by
    rintro rfl
    cases hw
  exact (trimmed_of_isName hw).between (trimmed_singleton (by decide)) hne (by simp) ('<' :: inside)

/-- A name with arguments in angle brackets comes apart at the brackets. -/
theorem genericParts?_wrapped {w : List Char} (hw : isName w = true) (hpath : isMemberPath w = true)
    (inside : List Char) : genericParts? (w ++ '<' :: (inside ++ ['>'])) = some (w, inside) := by
  have hangle : '<' ∉ w := notMem_of_isName hw (by decide)
  have hdot : '.' ∉ w := notMem_of_isName hw (by decide)
  have hlast : (w ++ '<' :: (inside ++ ['>'])).getLast? = some '>' := by
    have hsplit : w ++ '<' :: (inside ++ ['>']) = (w ++ '<' :: inside) ++ ['>'] := by simp
    rw [hsplit, List.getLast?_concat]
  have hinside : ((w ++ '<' :: (inside ++ ['>'])).drop (w.length + 1)).dropLast = inside := by
    rw [← List.drop_drop, List.drop_left]
    simp
  rw [genericParts?, (trimmed_wrapped hw inside).trim_eq, find?_of_notMem hangle]
  simp only [Option.bind_eq_bind, Option.bind_some, hlast, bne_self_eq_false, Bool.false_eq_true,
    if_false]
  rw [List.take_left, (trimmed_of_isName hw).trim_eq, if_pos hpath, splitOn_plain hdot, hinside]
  rfl

/-! ### Ends -/

/-- What ends a member or counts brackets of its type. -/
def typeSigns : List Char := ['<', '>', ';', ',', '\n', '=']

theorem endFrom_plain (t : List Char) (angle : Nat) (last : Char) {m : Mark} (h : m.char ∉ typeSigns)
    (ms : List Mark) : Member.endFrom t angle last (m :: ms) = Member.endFrom t angle m.char ms := by
  simp only [typeSigns, List.mem_cons, List.not_mem_nil, or_false, not_or] at h
  simp [Member.endFrom, h]

/-- Marks inside brackets are passed over. -/
theorem endFrom_deep (t : List Char) (angle : Nat) (last : Char) {ms : List Mark}
    (h : ∀ m ∈ ms, m.depth ≠ 0) (rest : List Mark) : ∃ last',
      Member.endFrom t angle last (ms ++ rest) = Member.endFrom t angle last' rest := by
  induction ms generalizing last with
  | nil => exact ⟨last, rfl⟩
  | cons m ms ih =>
    obtain ⟨last', hl⟩ := ih m.char fun m' hm' => h m' (by simp [hm'])
    refine ⟨last', ?_⟩
    rw [List.cons_append, Member.endFrom, if_pos (by simpa using h m (by simp)), hl]

/-- Properly nested text without signs of types is passed over, and leaves no equals sign behind. -/
theorem endFrom_sealed {w : List Char} (h : Sealed typeSigns w) (t rest : List Char) (i angle : Nat)
    {last : Char} (hlast : last ≠ '=') : ∃ last', last' ≠ '=' ∧
      Member.endFrom t angle last (marksFrom .code 0 i (w ++ rest)) =
        Member.endFrom t angle last' (marksFrom .code 0 (i + w.length) rest) := by
  generalize hsigns : typeSigns = signs at h
  induction h generalizing i last with
  | nil => exact ⟨last, hlast, rfl⟩
  | @plain avoid c w hc ho _ ih =>
    subst hsigns
    have hne : c ≠ '=' := by
      rintro rfl
      exact hc (by decide)
    obtain ⟨last', hl, he⟩ := ih (i + 1) hne rfl
    refine ⟨last', hl, ?_⟩
    rw [List.cons_append, marksFrom_ordinary ho, endFrom_plain t angle last hc, he, List.length_cons,
      Nat.add_right_comm, Nat.add_assoc]
  | @link avoid w _ _ ih =>
    subst hsigns
    have hsigns : '?' ∉ typeSigns ∧ '.' ∉ typeSigns ∧ '.' ≠ '=' := by decide
    obtain ⟨last', hl, he⟩ := ih (i + 1 + 1) hsigns.2.2 rfl
    refine ⟨last', hl, ?_⟩
    rw [List.cons_append, List.cons_append, marksFrom_ordinary (by decide),
      marksFrom_ordinary (by decide), endFrom_plain t angle last hsigns.1,
      endFrom_plain t angle _ hsigns.2.1, he]
    congr 2
    simp only [List.length_cons]
    omega
  | @literal avoid q body w hq hb _ ih =>
    subst hsigns
    have hquote : q ∉ typeSigns ∧ q ≠ '=' := by
      simp only [isQuote, Bool.or_eq_true, beq_iff_eq] at hq
      rcases hq with (rfl | rfl) | rfl <;> decide
    obtain ⟨last', hl, he⟩ := ih (i + 1 + body.length + 1) hquote.2 rfl
    refine ⟨last', hl, ?_⟩
    rw [List.cons_append, List.append_assoc, List.cons_append, marksFrom, if_pos hq,
      marksFrom_literal hq hb, endFrom_plain t angle last hquote.1, endFrom_plain t angle _ hquote.1, he]
    congr 2
    simp only [List.length_cons, List.length_append]
    omega
  | @group avoid o c inner w hc hi _ _ ih =>
    subst hsigns
    have hbrackets : o ∉ typeSigns ∧ c ∉ typeSigns ∧ c ≠ '=' := by
      obtain ⟨rfl, rfl⟩ | ⟨rfl, rfl⟩ | ⟨rfl, rfl⟩ := closingFor?_cases hc <;> decide
    obtain ⟨last', hl, he⟩ := ih (i + 1 + inner.length + 1) hbrackets.2.2 rfl
    obtain ⟨ms, hms, hm⟩ := hi.marksFrom_append 1 (i + 1) (c :: (w ++ rest))
    have hdeep : ∀ m ∈ ms, m.depth ≠ 0 := fun m hmem => by
      have := (hm m hmem).depth
      omega
    obtain ⟨inside, hinside⟩ := endFrom_deep t angle o hdeep
      (marksFrom .code 1 (i + 1 + inner.length) (c :: (w ++ rest)))
    refine ⟨last', hl, ?_⟩
    rw [List.cons_append, List.append_assoc, List.cons_append, marksFrom_open hc,
      endFrom_plain t angle last hbrackets.1, hms, hinside, marksFrom_close hc,
      endFrom_plain t angle _ hbrackets.2.1, he]
    congr 2
    simp only [List.length_cons, List.length_append]
    omega

/-- Read with so many open angle brackets, the text has a member that ends after so many
characters. -/
def EndsAt (u : List Char) (angle k : Nat) : Prop :=
  ∀ t i last, last ≠ '=' → Member.endFrom t angle last (marksFrom .code 0 i u) = some (i + k)

namespace EndsAt

variable {u w : List Char} {angle k : Nat}

theorem sealed (h : EndsAt u angle k) (hw : Sealed typeSigns w) :
    EndsAt (w ++ u) angle (w.length + k) := by
  intro t i last hlast
  obtain ⟨last', hl, he⟩ := endFrom_sealed hw t u i angle hlast
  rw [he, h t _ last' hl, Nat.add_assoc]

theorem «open» (h : EndsAt u (angle + 1) k) : EndsAt ('<' :: u) angle (k + 1) := by
  intro t i last _
  have hrest := h t (i + 1) '<' (by decide)
  rw [marksFrom_ordinary (by decide), Member.endFrom]
  simpa [Nat.add_assoc, Nat.add_comm 1] using hrest

theorem close (h : EndsAt u angle k) : EndsAt ('>' :: u) (angle + 1) (k + 1) := by
  intro t i last hlast
  have hrest := h t (i + 1) '>' (by decide)
  rw [marksFrom_ordinary (by decide), Member.endFrom]
  simpa [hlast, Nat.add_assoc, Nat.add_comm 1] using hrest

theorem comma (h : EndsAt u (angle + 1) k) : EndsAt (',' :: u) (angle + 1) (k + 1) := by
  intro t i last _
  have hrest := h t (i + 1) ',' (by decide)
  rw [marksFrom_ordinary (by decide), Member.endFrom]
  simpa [Nat.add_assoc, Nat.add_comm 1] using hrest

end EndsAt

theorem endsAt_semicolon (rest : List Char) : EndsAt (';' :: rest) 0 0 := by
  intro t i last _
  rw [marksFrom_ordinary (by decide), Member.endFrom]
  simp

end JsxToJinja
