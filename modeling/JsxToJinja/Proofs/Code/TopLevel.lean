import JsxToJinja.Proofs.Code.Cuts

/-! Characters outside brackets and literals. What stands in front of one is itself properly nested,
so that the place can be named without a scan. -/
namespace JsxToJinja.Code
open JsxToJinja.Text

/-- The character stands in the text outside brackets and literals, behind `a` and in front of `b`. -/
structure OnTop (t a : List Char) (c : Char) (b : List Char) : Prop where
  eq : t = a ++ c :: b
  front : Sealed [] a

namespace OnTop
variable {t a b : List Char} {c : Char}

theorem here (c : Char) (t : List Char) : OnTop (c :: t) [] c t := ⟨rfl, .nil⟩

theorem behind {w : List Char} (hw : Sealed [] w) (h : OnTop t a c b) :
    OnTop (w ++ t) (w ++ a) c b :=
  ⟨by rw [h.eq, List.append_assoc], hw.append h.front⟩

/-- A scan meets the character. -/
theorem mem_marks (h : OnTop t a c b) (ho : isOrdinary c = true) :
    ⟨a.length, c, 0, c :: b⟩ ∈ marks t := by
  obtain ⟨ms, he, -⟩ := h.front.marksFrom_append 0 0 (c :: b)
  rw [marks, h.eq, he, Nat.zero_add, marksFrom_ordinary ho]
  simp

end OnTop

/-- An ordinary character that a scan meets in a text at the depth it began with stands on top. -/
theorem Sealed.exists_onTop {avoid w : List Char} (h : Sealed avoid w) {d i : Nat}
    {rest : List Char} {m : Mark} (hm : m ∈ marksFrom .code d i (w ++ rest))
    (hi : m.index < i + w.length) (hd : m.depth = d) (ho : isOrdinary m.char = true) :
    ∃ a b, OnTop w a m.char b ∧ m.index = i + a.length ∧ m.rest = m.char :: (b ++ rest) := by
  -- A mark behind the front `v` of the text is one of the rest of it.
  have shift {i : Nat} (v : List Char) {t : List Char} (hv : Sealed [] v)
      (ih : ∃ a b, OnTop t a m.char b ∧ m.index = i + v.length + a.length ∧
        m.rest = m.char :: (b ++ rest)) :
      ∃ a b, OnTop (v ++ t) a m.char b ∧ m.index = i + a.length ∧
        m.rest = m.char :: (b ++ rest) := by
    obtain ⟨a, b, hon, hindex, hrest⟩ := ih
    exact ⟨v ++ a, b, hon.behind hv, by rw [hindex, List.length_append, Nat.add_assoc], hrest⟩
  induction h generalizing i with
  | nil =>
    have hle := (rest_of_mem_marksFrom hm).1
    exact absurd hi (Nat.not_lt.2 hle)
  | @plain avoid c t _ hc _ ih =>
    rw [List.cons_append, marksFrom_ordinary hc] at hm
    rcases List.mem_cons.1 hm with rfl | hm
    · exact ⟨[], t, .here c t, rfl, rfl⟩
    · rw [List.length_cons] at hi
      exact shift [c] (sealed_of_ordinary (by simp [hc])) (ih hm (by rw [List.length_singleton]; omega))
  | @link avoid t _ _ ih =>
    rw [List.cons_append, List.cons_append, marksFrom_ordinary (by decide),
      marksFrom_ordinary (by decide)] at hm
    rcases List.mem_cons.1 hm with rfl | hm
    · exact ⟨[], '.' :: t, .here '?' _, rfl, rfl⟩
    · rcases List.mem_cons.1 hm with rfl | hm
      · exact ⟨['?'], t, (OnTop.here '.' t).behind (.plain (by simp) (by decide) .nil), rfl, rfl⟩
      · rw [List.length_cons, List.length_cons] at hi
        refine shift ['?', '.'] (.link (by simp) .nil) (ih hm ?_)
        show m.index < i + 2 + t.length
        omega
  | @literal avoid q body t hq hb _ ih =>
    have hquote : isOrdinary q = false := by simp [isOrdinary, hq]
    have htext : q :: (body ++ q :: t) = q :: (body ++ [q]) ++ t := by simp
    have hlen : i + (q :: (body ++ [q])).length = i + 1 + body.length + 1 := by simp; omega
    rw [List.cons_append, List.append_assoc, List.cons_append, marksFrom, if_pos hq,
      marksFrom_literal hq hb] at hm
    rcases List.mem_cons.1 hm with rfl | hm
    · exact absurd ho (by simp [hquote])
    · rcases List.mem_cons.1 hm with rfl | hm
      · exact absurd ho (by simp [hquote])
      · rw [htext]
        refine shift _ (sealed_literal hq hb) ?_
        rw [hlen]
        refine ih hm ?_
        simp only [List.length_cons, List.length_append] at hi
        omega
  | @group avoid o c inner t hc hin _ _ ih =>
    have hbrackets : isOrdinary o = false ∧ isOrdinary c = false := by
      obtain ⟨rfl, rfl⟩ | ⟨rfl, rfl⟩ | ⟨rfl, rfl⟩ := closingFor?_cases hc <;> decide
    have htext : o :: (inner ++ c :: t) = o :: (inner ++ [c]) ++ t := by simp
    have hlen : i + (o :: (inner ++ [c])).length = i + 1 + inner.length + 1 := by simp; omega
    obtain ⟨ns, hne, hn⟩ := hin.marksFrom_append (d + 1) (i + 1) (c :: (t ++ rest))
    rw [List.cons_append, List.append_assoc, List.cons_append, marksFrom_open hc, hne,
      marksFrom_close hc] at hm
    rcases List.mem_cons.1 hm with rfl | hm
    · exact absurd ho (by simp [hbrackets.1])
    rcases List.mem_append.1 hm with hm | hm
    · exact absurd (hn m hm).depth (by omega)
    rcases List.mem_cons.1 hm with rfl | hm
    · exact absurd ho (by simp [hbrackets.2])
    · rw [htext]
      refine shift _ (Sealed.bracket hc hin) ?_
      rw [hlen]
      refine ih hm ?_
      simp only [List.length_cons, List.length_append] at hi
      omega

end JsxToJinja.Code
