import JsxToJinja.Proofs.Code.Cuts

/-! Where a conditional comes apart: at its first question mark, and at the colon that is left over
when every conditional inside the consequent has taken its own. -/
namespace JsxToJinja.Code
open JsxToJinja.Text

theorem Mark.Inside.not_question {avoid : List Char} {lo hi : Nat} {m : Mark}
    (h : m.Inside avoid 0 lo hi) (hq : '?' ∈ avoid) (t : List Char) : questionAt t m = false := by
  by_cases hc : m.depth = 0 ∧ m.char = '?'
  · obtain ⟨s, hs⟩ := h.harmless hc.1 (hc.2 ▸ hq) (by rw [hc.2]; decide)
    simp [questionAt, isTernaryQuestion, hs]
  · have hne : (m.depth == 0 && m.char == '?') = false := by simpa using hc
    simp [questionAt, hne]

theorem Mark.Inside.not_colon {avoid : List Char} {lo hi : Nat} {m : Mark}
    (h : m.Inside avoid 0 lo hi) (hc : ':' ∈ avoid) : (m.depth == 0 && m.char == ':') = false := by
  have hcut : Cutting avoid ':' := ⟨hc, by decide, by decide⟩
  obtain ⟨t, ht⟩ := h.rest
  have hs := h.not_starts hcut []
  simp only [Bool.and_eq_false_iff, beq_eq_false_iff_ne, ne_eq]
  by_cases hm : m.char = ':'
  · left
    intro hd
    simp [Mark.starts, hd, ht, hm, startsWith, isQuote] at hs
  · exact .inr hm

/-- In front of a question mark: not empty, and not itself ending in one. -/
def EndsPlain (a : List Char) : Prop := ∃ c ∈ a.getLast?, c ≠ '?'

/-- Behind a question mark: not empty, and not the rest of a chain or of `??`. -/
def StartsPlain (x : List Char) : Prop := ∃ c ∈ x.head?, c ≠ '?' ∧ c ≠ '.'

/-- Between plain edges a question mark asks, whatever stands further out. -/
theorem questionAt_between {pre a x : List Char} (ha : EndsPlain a) (hx : StartsPlain x) :
    questionAt (pre ++ (a ++ '?' :: x)) ⟨pre.length + a.length, '?', 0, '?' :: x⟩ = true := by
  obtain ⟨c, hc, hcq⟩ := ha
  obtain ⟨d, hd, hdq, hdot⟩ := hx
  obtain ⟨a', rfl⟩ := List.getLast?_eq_some_iff.1 hc
  obtain ⟨x', rfl⟩ := List.head?_eq_some_iff.1 hd
  have hpos : pre.length + (a' ++ [c]).length ≠ 0 := by simp
  have hbefore : (pre ++ (a' ++ [c] ++ '?' :: d :: x'))[pre.length + (a' ++ [c]).length - 1]? =
      some c := by
    simp
  have hnext : isTernaryQuestion (some c) ('?' :: d :: x') = true := by
    simp only [isTernaryQuestion, Bool.and_eq_true, bne_iff_ne, ne_eq, Option.some.injEq]
    refine ⟨hcq, ?_⟩
    split
    · rename_i he
      simp only [List.cons.injEq] at he
      exact absurd he.2.1 hdot
    · rename_i he
      simp only [List.cons.injEq] at he
      exact absurd he.2.1 hdq
    · rfl
  simp only [questionAt, if_neg hpos, hbefore, hnext]
  decide

/-- Every question mark of a conditional in the text has its colon: looking for a separator passes
over the text without finding it. -/
def Paired (b : List Char) : Prop :=
  ∀ (pre rest : List Char) (n : Nat),
    separatorFrom (pre ++ (b ++ rest)) n (marksFrom .code 0 pre.length (b ++ rest)) =
      separatorFrom (pre ++ (b ++ rest)) n (marksFrom .code 0 (pre.length + b.length) rest)

private theorem separatorFrom_question {t : List Char} {m : Mark} (h : questionAt t m = true)
    (n : Nat) (ms : List Mark) : separatorFrom t n (m :: ms) = separatorFrom t (n + 1) ms := by
  rw [separatorFrom.eq_def]
  simp [h]

private theorem separatorFrom_other {t : List Char} {m : Mark} (hq : questionAt t m = false)
    (hc : (m.depth == 0 && m.char == ':') = false) (n : Nat) (ms : List Mark) :
    separatorFrom t n (m :: ms) = separatorFrom t n ms := by
  rw [separatorFrom.eq_def]
  simp [hq, hc]

private theorem separatorFrom_colon (t : List Char) (n i : Nat) (ms : List Mark)
    (rest : List Char) : separatorFrom t (n + 1) (⟨i, ':', 0, rest⟩ :: ms) = separatorFrom t n ms := by
  rw [separatorFrom.eq_def]
  simp [questionAt]

/-- Marks that neither ask nor answer leave the count of open questions as it is. -/
theorem separatorFrom_append {t : List Char} {ms : List Mark}
    (h : ∀ m ∈ ms, questionAt t m = false ∧ (m.depth == 0 && m.char == ':') = false)
    (n : Nat) (ns : List Mark) : separatorFrom t n (ms ++ ns) = separatorFrom t n ns := by
  induction ms with
  | nil => rfl
  | cons m ms ih =>
    obtain ⟨hq, hc⟩ := h m (by simp)
    rw [List.cons_append, separatorFrom_other hq hc]
    exact ih fun m hm => h m (by simp [hm])

theorem Sealed.paired {avoid b : List Char} (h : Sealed avoid b) (hq : '?' ∈ avoid)
    (hc : ':' ∈ avoid) : Paired b := by
  intro pre rest n
  obtain ⟨ms, he, hm⟩ := h.marksFrom_append 0 pre.length rest
  rw [he]
  exact separatorFrom_append (fun m hmem =>
    ⟨(hm m hmem).not_question hq _, (hm m hmem).not_colon hc⟩) n _

theorem Paired.append {a b : List Char} (ha : Paired a) (hb : Paired b) : Paired (a ++ b) := by
  intro pre rest n
  have h := hb (pre ++ a) rest n
  rw [List.append_assoc, List.length_append] at h
  rw [List.append_assoc, ha pre (b ++ rest) n, h, List.length_append, Nat.add_assoc]

/-- The colon of a conditional closes its question mark. -/
theorem Paired.conditional {a x y : List Char} (ha : Paired a) (hx : Paired x) (hy : Paired y)
    (hend : EndsPlain a) (hstart : StartsPlain x) : Paired (a ++ '?' :: (x ++ ':' :: y)) := by
  intro pre rest n
  have hstart' : StartsPlain (x ++ ':' :: (y ++ rest)) := by
    obtain ⟨d, hd, h⟩ := hstart
    exact ⟨d, by simp [Option.mem_def.1 hd], h⟩
  have htext : pre ++ (a ++ '?' :: (x ++ ':' :: y) ++ rest) =
      pre ++ (a ++ '?' :: (x ++ ':' :: (y ++ rest))) := by simp
  have hb := ha pre ('?' :: (x ++ ':' :: (y ++ rest))) n
  have hxb := hx (pre ++ a ++ ['?']) (':' :: (y ++ rest)) (n + 1)
  have hyb := hy (pre ++ a ++ '?' :: x ++ [':']) rest n
  have hlen : pre.length + a.length + 1 + x.length + 1 = (pre ++ a ++ '?' :: x ++ [':']).length := by
    simp; omega
  have hlen' : (pre ++ a ++ '?' :: x ++ [':']).length + y.length =
      pre.length + (a ++ '?' :: (x ++ ':' :: y)).length := by
    simp; omega
  have htx : pre ++ a ++ ['?'] ++ (x ++ ':' :: (y ++ rest)) =
      pre ++ (a ++ '?' :: (x ++ ':' :: (y ++ rest))) := by simp
  have hty : pre ++ a ++ '?' :: x ++ [':'] ++ (y ++ rest) =
      pre ++ (a ++ '?' :: (x ++ ':' :: (y ++ rest))) := by simp
  have hlx : (pre ++ a ++ ['?']).length = pre.length + a.length + 1 := by simp; omega
  rw [htx, hlx] at hxb
  rw [hty] at hyb
  have hsplit : a ++ '?' :: (x ++ ':' :: y) ++ rest = a ++ '?' :: (x ++ ':' :: (y ++ rest)) := by
    simp
  rw [hsplit, hb, marksFrom_ordinary (by decide),
    separatorFrom_question (questionAt_between hend hstart'), hxb, marksFrom_ordinary (by decide),
    separatorFrom_colon, hlen, hyb, hlen']

/-! ### The three parts -/

/-- Wherever the text stands, a scan meets no question mark of a conditional in it. -/
def Unasked (w : List Char) : Prop :=
  ∀ pre rest : List Char, ∃ ms,
    marksFrom .code 0 pre.length (w ++ rest) =
        ms ++ marksFrom .code 0 (pre.length + w.length) rest ∧
      ∀ m ∈ ms, m.index < pre.length + w.length ∧ questionAt (pre ++ (w ++ rest)) m = false

theorem Sealed.unasked {avoid w : List Char} (h : Sealed avoid w) (hq : '?' ∈ avoid) :
    Unasked w := by
  intro pre rest
  obtain ⟨ms, he, hm⟩ := h.marksFrom_append 0 pre.length rest
  exact ⟨ms, he, fun m hmem => ⟨(hm m hmem).upper, (hm m hmem).not_question hq _⟩⟩

theorem Unasked.append {v w : List Char} (hv : Unasked v) (hw : Unasked w) : Unasked (v ++ w) := by
  intro pre rest
  obtain ⟨ms, he, hm⟩ := hv pre (w ++ rest)
  obtain ⟨ns, hne, hn⟩ := hw (pre ++ v) rest
  have htext : pre ++ v ++ (w ++ rest) = pre ++ (v ++ (w ++ rest)) := by simp
  rw [List.length_append, htext] at hn
  rw [List.length_append] at hne
  refine ⟨ms ++ ns, ?_, ?_⟩
  · rw [List.append_assoc, he, hne, List.append_assoc, List.length_append, Nat.add_assoc]
  · intro m hmem
    rw [List.append_assoc, List.length_append]
    rcases List.mem_append.1 hmem with hmem | hmem
    · exact ⟨by have := (hm m hmem).1; omega, (hm m hmem).2⟩
    · exact ⟨by have := (hn m hmem).1; omega, (hn m hmem).2⟩

theorem Unasked.findTernaryQuestion?_eq_none {w : List Char} (h : Unasked w) :
    findTernaryQuestion? w = none := by
  obtain ⟨ms, he, hm⟩ := h [] []
  have hmarks : marks w = ms := by simpa [marks, marksFrom] using he
  have hnone : ms.find? (questionAt w) = none := by
    rw [List.find?_eq_none]
    intro m hmem
    simpa using (hm m hmem).2
  simp [findTernaryQuestion?, hmarks, hnone]

theorem Unasked.splitTernary?_eq_none {w : List Char} (h : Unasked w) : splitTernary? w = none := by
  simp [splitTernary?, h.findTernaryQuestion?_eq_none]

theorem Sealed.splitTernary?_eq_none {avoid w : List Char} (h : Sealed avoid w)
    (hq : '?' ∈ avoid) : splitTernary? w = none := (h.unasked hq).splitTernary?_eq_none

/-- A question mark of a chain does not start `??`. -/
theorem Sealed.containsTopLevel_coalesce {avoid w : List Char} (h : Sealed avoid w)
    (hq : '?' ∈ avoid) : containsTopLevel w "??".toList = false := by
  obtain ⟨ms, he, hm⟩ := h.marksFrom_append 0 0 []
  have hmarks : marks w = ms := by simpa [marks, marksFrom] using he
  have hnone : ms.find? (·.starts "??".toList) = none := by
    rw [List.find?_eq_none]
    intro m hmem
    obtain ⟨t, ht⟩ := (hm m hmem).rest
    by_cases hc : m.depth = 0 ∧ m.char = '?'
    · obtain ⟨s, hs⟩ := (hm m hmem).harmless hc.1 (hc.2 ▸ hq) (by rw [hc.2]; decide)
      simp [Mark.starts, startsWith, hs]
    · by_cases hd : m.depth = 0
      · have hhead : m.rest.head? ≠ some '?' := by
          rw [ht]
          exact fun h => hc ⟨hd, Option.some.inj h⟩
        have hs : startsWith m.rest "??".toList = false := startsWith_of_head hhead _
        simp only [Mark.starts, hs, Bool.and_false, Bool.false_eq_true, not_false_eq_true]
      · simp [Mark.starts, hd]
  have hneedle : ("??".toList).isEmpty = false := by decide
  simp only [containsTopLevel, findTopLevel?, hneedle, hmarks, hnone]
  rfl

private theorem filter_after {q d : Nat} {ms : List Mark} (hms : ∀ m ∈ ms, m.index < q)
    (c : Char) (rest t : List Char) :
    (ms ++ ⟨q, c, d, rest⟩ :: marksFrom .code d (q + 1) t).filter (q < ·.index) =
      marksFrom .code d (q + 1) t := by
  have hfront : ms.filter (q < ·.index) = [] := by
    rw [List.filter_eq_nil_iff]
    intro m hm
    have := hms m hm
    simp only [decide_eq_true_eq]
    omega
  have hback : (marksFrom .code d (q + 1) t).filter (q < ·.index) = marksFrom .code d (q + 1) t := by
    rw [List.filter_eq_self]
    intro m hm
    exact decide_eq_true (rest_of_mem_marksFrom hm).1
  rw [List.filter_append, hfront, List.filter_cons_of_neg (by simp), hback, List.nil_append]

/-- A conditional whose condition holds no other comes apart into its three trimmed parts. -/
theorem Unasked.splitTernary?_conditional {a x y : List Char} (ha : Unasked a) (hx : Paired x)
    (hend : EndsPlain a) (hstart : StartsPlain x) (hane : trim a ≠ []) (hxne : trim x ≠ [])
    (hyne : trim y ≠ []) :
    splitTernary? (a ++ '?' :: (x ++ ':' :: y)) = some (trim a, trim x, trim y) := by
  have hstart' : StartsPlain (x ++ ':' :: y) := by
    obtain ⟨d, hd, h⟩ := hstart
    exact ⟨d, by simp [Option.mem_def.1 hd], h⟩
  obtain ⟨ms, he, hm⟩ := ha [] ('?' :: (x ++ ':' :: y))
  simp only [List.length_nil, Nat.zero_add, List.nil_append] at he hm
  rw [marksFrom_ordinary (by decide)] at he
  have hquestion : findTernaryQuestion? (a ++ '?' :: (x ++ ':' :: y)) = some a.length := by
    have hnone : ms.find? (questionAt (a ++ '?' :: (x ++ ':' :: y))) = none := by
      rw [List.find?_eq_none]
      intro m hmem
      simpa using (hm m hmem).2
    have hat : questionAt ([] ++ (a ++ '?' :: (x ++ ':' :: y))) _ = true :=
      questionAt_between hend hstart'
    simp only [List.nil_append, List.length_nil, Nat.zero_add] at hat
    rw [findTernaryQuestion?, marks, he, List.find?_append, hnone]
    simp [hat]
  have hcolon : findTernarySeparator? (a ++ '?' :: (x ++ ':' :: y)) =
      some (a.length + 1 + x.length) := by
    have hp := hx (a ++ ['?']) (':' :: y) 0
    have ht : a ++ ['?'] ++ (x ++ ':' :: y) = a ++ '?' :: (x ++ ':' :: y) := by simp
    have hl : (a ++ ['?']).length = a.length + 1 := by simp
    rw [ht, hl] at hp
    rw [findTernarySeparator?, hquestion, Option.bind_eq_bind, Option.bind_some, marks, he,
      filter_after (fun m hmem => (hm m hmem).1), hp, marksFrom_ordinary (by decide),
      separatorFrom.eq_def]
    simp [questionAt]
  have hcut : slice (a ++ '?' :: (x ++ ':' :: y)) (a.length + 1) (a.length + 1 + x.length) = x := by
    have := slice_append_left (a ++ ['?']) x (':' :: y)
    simpa using this
  have hdrop : (a ++ '?' :: (x ++ ':' :: y)).drop (a.length + 1 + x.length + 1) = y := by
    have ht : a ++ '?' :: (x ++ ':' :: y) = (a ++ '?' :: x ++ [':']) ++ y := by simp
    have hl : a.length + 1 + x.length + 1 = (a ++ '?' :: x ++ [':']).length := by simp; omega
    rw [ht, hl, List.drop_left]
  simp only [splitTernary?, hquestion, hcolon, Option.bind_eq_bind, Option.bind_some, hcut, hdrop,
    List.take_left]
  simp [hane, hxne, hyne]

theorem splitTernary?_conditional {avoid a x y : List Char} (ha : Sealed avoid a)
    (hq : '?' ∈ avoid) (hx : Paired x) (hend : EndsPlain a) (hstart : StartsPlain x)
    (hane : trim a ≠ []) (hxne : trim x ≠ []) (hyne : trim y ≠ []) :
    splitTernary? (a ++ '?' :: (x ++ ':' :: y)) = some (trim a, trim x, trim y) :=
  (ha.unasked hq).splitTernary?_conditional hx hend hstart hane hxne hyne

end JsxToJinja.Code
