import JsxToJinja.Code.Ternary
import JsxToJinja.Proofs.Text.Trimmed

/-! Sealed texts: every literal closes and brackets are properly nested. Scanning one leaves the
mode and the depth as they were, so each search over marks can be answered for a text put together
from sealed pieces. -/
namespace JsxToJinja.Code
open JsxToJinja.Text

/-- What stands between the quotes of a literal: a backslash takes the next character with it. -/
inductive LiteralBody (q : Char) : List Char → Prop where
  | nil : LiteralBody q []
  | plain {c : Char} {t : List Char} : c ≠ '\\' → c ≠ q → LiteralBody q t → LiteralBody q (c :: t)
  | escape {c : Char} {t : List Char} : LiteralBody q t → LiteralBody q ('\\' :: c :: t)

/-- A character that neither opens a literal nor opens or closes a bracket. -/
def isOrdinary (c : Char) : Bool := !isQuote c && !isOpening c && !isClosing c

/-- Properly nested text. Outside its brackets and literals no character of `avoid` occurs, but for
the question mark of an optional chain. -/
inductive Sealed : List Char → List Char → Prop where
  | nil {avoid : List Char} : Sealed avoid []
  | plain {avoid : List Char} {c : Char} {t : List Char} :
      c ∉ avoid → isOrdinary c = true → Sealed avoid t → Sealed avoid (c :: t)
  | link {avoid t : List Char} : '.' ∉ avoid → Sealed avoid t → Sealed avoid ('?' :: '.' :: t)
  | literal {avoid : List Char} {q : Char} {body t : List Char} :
      isQuote q = true → LiteralBody q body → Sealed avoid t → Sealed avoid (q :: (body ++ q :: t))
  | group {avoid : List Char} {o c : Char} {inner t : List Char} :
      closingFor? o = some c → Sealed [] inner → Sealed avoid t →
      Sealed avoid (o :: (inner ++ c :: t))

/-- What is known of a mark made inside a sealed text that starts at depth `d` and takes the
positions from `lo` up to `hi`. -/
structure Mark.Inside (avoid : List Char) (d lo hi : Nat) (m : Mark) : Prop where
  depth : d ≤ m.depth
  harmless : m.depth = d → m.char ∈ avoid → isOrdinary m.char = true →
    ∃ t, m.rest = '?' :: '.' :: t
  lower : lo ≤ m.index
  upper : m.index < hi
  rest : ∃ t, m.rest = m.char :: t

theorem Mark.Inside.mono {avoid : List Char} {d lo hi lo' hi' : Nat} {m : Mark}
    (h : m.Inside avoid d lo hi) (hlo : lo' ≤ lo) (hhi : hi ≤ hi') : m.Inside avoid d lo' hi' :=
  ⟨h.depth, h.harmless, Nat.le_trans hlo h.lower, Nat.lt_of_lt_of_le h.upper hhi, h.rest⟩

/-- Two texts side by side nest when each of them does. -/
theorem Sealed.append {avoid s t : List Char} (hs : Sealed avoid s) (ht : Sealed avoid t) :
    Sealed avoid (s ++ t) := by
  induction hs with
  | nil => exact ht
  | plain hc ho _ ih => exact .plain hc ho (ih ht)
  | link hd _ ih => exact .link hd (ih ht)
  | literal hq hb _ ih => simpa using Sealed.literal hq hb (ih ht)
  | group hc hi _ _ ih => simpa using Sealed.group hc hi (ih ht)

theorem Sealed.mono {avoid less s : List Char} (hs : Sealed avoid s) (h : less ⊆ avoid) :
    Sealed less s := by
  induction hs with
  | nil => exact .nil
  | plain hc ho _ ih => exact .plain (fun hm => hc (h hm)) ho (ih h)
  | link hd _ ih => exact .link (fun hm => hd (h hm)) (ih h)
  | literal hq hb _ ih => exact .literal hq hb (ih h)
  | group hc hi _ _ ih => exact .group hc hi (ih h)

theorem sealed_of_ordinary {avoid t : List Char}
    (h : ∀ c ∈ t, c ∉ avoid ∧ isOrdinary c = true) : Sealed avoid t := by
  induction t with
  | nil => exact .nil
  | cons c t ih =>
    obtain ⟨ha, ho⟩ := h c (by simp)
    exact .plain ha ho (ih fun d hd => h d (by simp [hd]))

theorem isOrdinary_of_isBlank {c : Char} (h : isBlank c = true) : isOrdinary c = true := by
  have hne {d : Char} (hd : isBlank d = false) : (c == d) = false := by
    rw [beq_eq_false_iff_ne]
    rintro rfl
    simp [h] at hd
  simp only [isOrdinary, isQuote, isOpening, isClosing, Bool.and_eq_true, Bool.not_eq_true',
    Bool.or_eq_false_iff]
  and_intros <;> exact hne (by decide)

theorem sealed_of_blank {avoid p : List Char} (hp : Blank p)
    (ha : ∀ c ∈ avoid, isBlank c = false) : Sealed avoid p := by
  apply sealed_of_ordinary
  intro c hc
  refine ⟨fun hm => ?_, isOrdinary_of_isBlank (hp c hc)⟩
  exact absurd (hp c hc) (by simp [ha c hm])

/-- A bracketed group on its own. -/
theorem Sealed.bracket {avoid inner : List Char} {o c : Char} (hc : closingFor? o = some c)
    (hi : Sealed [] inner) : Sealed avoid (o :: (inner ++ [c])) := .group hc hi .nil

/-- Blanks inside the parentheses change nothing. -/
theorem Sealed.paren {avoid p t q : List Char} (ht : Sealed [] t) (hp : Blank p) (hq : Blank q) :
    Sealed avoid ('(' :: (p ++ (t ++ (q ++ [')'])))) := by
  have hpad {u : List Char} (hu : Blank u) : Sealed [] u := sealed_of_blank hu (by simp)
  have hgroup : Sealed avoid ('(' :: ((p ++ (t ++ q)) ++ [')'])) :=
    Sealed.bracket (by decide) ((hpad hp).append (ht.append (hpad hq)))
  simpa using hgroup

theorem sealed_literal {avoid body : List Char} {q : Char} (hq : isQuote q = true)
    (hb : LiteralBody q body) : Sealed avoid (q :: (body ++ [q])) := .literal hq hb .nil

/-- The three pairs of brackets. -/
theorem closingFor?_cases {o c : Char} (h : closingFor? o = some c) :
    (o = '(' ∧ c = ')') ∨ (o = '[' ∧ c = ']') ∨ (o = '\x7b' ∧ c = '\x7d') := by
  unfold closingFor? at h
  split at h
  · rename_i ho
    exact .inl ⟨by simpa using ho, by simpa using h.symm⟩
  · split at h
    · rename_i ho
      exact .inr (.inl ⟨by simpa using ho, by simpa using h.symm⟩)
    · split at h
      · rename_i ho
        exact .inr (.inr ⟨by simpa using ho, by simpa using h.symm⟩)
      · cases h

theorem marksFrom_ordinary {c : Char} (h : isOrdinary c = true) (d i : Nat) (t : List Char) :
    marksFrom .code d i (c :: t) = ⟨i, c, d, c :: t⟩ :: marksFrom .code d (i + 1) t := by
  simp only [isOrdinary, Bool.and_eq_true, Bool.not_eq_true'] at h
  rw [marksFrom, if_neg (by simp [h]), if_neg (by simp [h]), if_neg (by simp [h])]

/-- A literal makes one mark, where it ends. -/
theorem marksFrom_literal {q : Char} {body : List Char} (hq : isQuote q = true)
    (hb : LiteralBody q body) (d i : Nat) (rest : List Char) :
    marksFrom (.quoted q) d i (body ++ q :: rest) =
      ⟨i + body.length, q, d, q :: rest⟩ :: marksFrom .code d (i + body.length + 1) rest := by
  have hslash : q ≠ '\\' := by
    rintro rfl
    exact absurd hq (by decide)
  induction hb generalizing i with
  | nil => simp [marksFrom, hslash]
  | @plain c t hc hcq _ ih =>
    have hl : i + (c :: t).length = i + 1 + t.length := by simp; omega
    rw [List.cons_append, marksFrom, if_neg (by simp [hc]), if_neg (by simp [hcq]), ih, hl]
  | @escape c t _ ih =>
    have hl : i + ('\\' :: c :: t).length = i + 1 + 1 + t.length := by simp; omega
    rw [List.cons_append, List.cons_append, marksFrom, if_pos (by simp), marksFrom, ih, hl]

theorem marksFrom_open {o c : Char} (h : closingFor? o = some c) (d i : Nat) (t : List Char) :
    marksFrom .code d i (o :: t) = ⟨i, o, d, o :: t⟩ :: marksFrom .code (d + 1) (i + 1) t := by
  obtain ⟨rfl, -⟩ | ⟨rfl, -⟩ | ⟨rfl, -⟩ := closingFor?_cases h
  all_goals rw [marksFrom, if_neg (by decide), if_pos (by decide)]

theorem marksFrom_close {o c : Char} (h : closingFor? o = some c) (d i : Nat) (t : List Char) :
    marksFrom .code (d + 1) i (c :: t) = ⟨i, c, d, c :: t⟩ :: marksFrom .code d (i + 1) t := by
  obtain ⟨-, rfl⟩ | ⟨-, rfl⟩ | ⟨-, rfl⟩ := closingFor?_cases h
  all_goals rw [marksFrom, if_neg (by decide), if_neg (by decide), if_pos (by decide)]; rfl

private theorem inside_at {avoid : List Char} {d i lo hi : Nat} {c : Char} {t : List Char}
    (hlo : lo ≤ i) (hhi : i < hi)
    (h : c ∈ avoid → isOrdinary c = true → ∃ s, c :: t = '?' :: '.' :: s) :
    Mark.Inside avoid d lo hi ⟨i, c, d, c :: t⟩ :=
  ⟨Nat.le_refl d, fun _ => h, hlo, hhi, t, rfl⟩

private theorem Mark.Inside.deeper {avoid avoid' : List Char} {d lo hi : Nat} {m : Mark}
    (h : m.Inside avoid (d + 1) lo hi) : m.Inside avoid' d lo hi := by
  have hd := h.depth
  exact ⟨by omega, fun he => absurd he (by omega), h.lower, h.upper, h.rest⟩

/-- Scanning a sealed text ends in code at the depth it began with, and no character of `avoid` is
met at that depth on the way. -/
theorem Sealed.marksFrom_append {avoid w : List Char} (h : Sealed avoid w) (d i : Nat)
    (rest : List Char) :
    ∃ ms, marksFrom .code d i (w ++ rest) = ms ++ marksFrom .code d (i + w.length) rest ∧
      ∀ m ∈ ms, m.Inside avoid d i (i + w.length) := by
  induction h generalizing d i rest with
  | nil => exact ⟨[], rfl, by simp⟩
  | @plain avoid c t hc ho _ ih =>
    have hl : i + (c :: t).length = i + 1 + t.length := by simp; omega
    obtain ⟨ms, he, hm⟩ := ih d (i + 1) rest
    refine ⟨⟨i, c, d, c :: (t ++ rest)⟩ :: ms, ?_, ?_⟩
    · rw [List.cons_append, marksFrom_ordinary ho, he, hl, List.cons_append]
    · rintro m (_ | ⟨_, hm'⟩)
      · exact inside_at (Nat.le_refl i) (by omega) fun ha => absurd ha hc
      · exact (hm m hm').mono (by omega) (by omega)
  | @link avoid t hdot _ ih =>
    have hl : i + ('?' :: '.' :: t).length = i + 1 + 1 + t.length := by simp; omega
    obtain ⟨ms, he, hm⟩ := ih d (i + 1 + 1) rest
    refine ⟨⟨i, '?', d, '?' :: '.' :: (t ++ rest)⟩ :: ⟨i + 1, '.', d, '.' :: (t ++ rest)⟩ :: ms,
      ?_, ?_⟩
    · rw [List.cons_append, marksFrom_ordinary (by decide), List.cons_append,
        marksFrom_ordinary (by decide), he, hl, List.cons_append, List.cons_append]
    · rintro m (_ | ⟨_, _ | ⟨_, hm'⟩⟩)
      · exact inside_at (Nat.le_refl i) (by omega) fun _ _ => ⟨_, rfl⟩
      · exact inside_at (by omega) (by omega) fun ha => absurd ha hdot
      · exact (hm m hm').mono (by omega) (by omega)
  | @literal avoid q body t hq hb _ ih =>
    have hl : i + (q :: (body ++ q :: t)).length = i + 1 + body.length + 1 + t.length := by
      simp; omega
    have hno : ¬ isOrdinary q = true := by simp [isOrdinary, hq]
    obtain ⟨ms, he, hm⟩ := ih d (i + 1 + body.length + 1) rest
    refine ⟨⟨i, q, d, q :: (body ++ q :: (t ++ rest))⟩ ::
      ⟨i + 1 + body.length, q, d, q :: (t ++ rest)⟩ :: ms, ?_, ?_⟩
    · rw [List.cons_append, marksFrom, if_pos hq, List.append_assoc, List.cons_append,
        marksFrom_literal hq hb, he, hl, List.cons_append, List.cons_append]
    · rintro m (_ | ⟨_, _ | ⟨_, hm'⟩⟩)
      · exact inside_at (Nat.le_refl i) (by omega) fun _ ho => absurd ho hno
      · exact inside_at (by omega) (by omega) fun _ ho => absurd ho hno
      · exact (hm m hm').mono (by omega) (by omega)
  | @group avoid o c inner t hc _ _ ihi ih =>
    have hl : i + (o :: (inner ++ c :: t)).length = i + 1 + inner.length + 1 + t.length := by
      simp; omega
    have hno : ¬ isOrdinary o = true ∧ ¬ isOrdinary c = true := by
      obtain ⟨rfl, rfl⟩ | ⟨rfl, rfl⟩ | ⟨rfl, rfl⟩ := closingFor?_cases hc <;> decide
    obtain ⟨ns, hne, hn⟩ := ihi (d + 1) (i + 1) (c :: (t ++ rest))
    obtain ⟨ms, he, hm⟩ := ih d (i + 1 + inner.length + 1) rest
    refine ⟨⟨i, o, d, o :: (inner ++ c :: (t ++ rest))⟩ :: (ns ++
      ⟨i + 1 + inner.length, c, d, c :: (t ++ rest)⟩ :: ms), ?_, ?_⟩
    · rw [List.cons_append, List.append_assoc, List.cons_append, marksFrom_open hc, hne,
        marksFrom_close hc, he, hl]
      simp only [List.cons_append, List.append_assoc]
    · intro m hm'
      rcases List.mem_cons.1 hm' with rfl | hm'
      · exact inside_at (Nat.le_refl i) (by omega) fun _ ho => absurd ho hno.1
      rcases List.mem_append.1 hm' with hm' | hm'
      · exact (hn m hm').deeper.mono (by omega) (by omega)
      rcases List.mem_cons.1 hm' with rfl | hm'
      · exact inside_at (by omega) (by omega) fun _ ho => absurd ho hno.2
      · exact (hm m hm').mono (by omega) (by omega)

end JsxToJinja.Code
