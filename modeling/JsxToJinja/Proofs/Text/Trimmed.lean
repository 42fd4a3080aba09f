import JsxToJinja.Text.Slice

/-! Texts without blanks at their ends, and what trimming and cutting make of a text put together
from them. -/
namespace JsxToJinja.Text

/-- What is said of the characters of a text is decided along the text, not over all characters. -/
instance (priority := high) decidableForallMem (p : Char → Prop) [DecidablePred p] (t : List Char) :
    Decidable (∀ c ∈ t, p c) :=
  List.decidableBAll p t

instance (priority := high) decidableForallMemOption (p : Char → Prop) [DecidablePred p] :
    (o : Option Char) → Decidable (∀ c ∈ o, p c)
  | none => .isTrue (by simp)
  | some c => decidable_of_iff (p c) (by simp)

/-- Nothing but blanks. -/
def Blank (t : List Char) : Prop := ∀ c ∈ t, isBlank c = true

/-- No blank at either end. -/
structure Trimmed (t : List Char) : Prop where
  head : ∀ c ∈ t.head?, isBlank c = false
  last : ∀ c ∈ t.getLast?, isBlank c = false

theorem blank_nil : Blank [] := by simp [Blank]

theorem blank_space : Blank [' '] := by
  intro c hc
  rw [List.mem_singleton.1 hc]
  decide

theorem Blank.append {s t : List Char} (hs : Blank s) (ht : Blank t) : Blank (s ++ t) := by
  intro c hc
  exact (List.mem_append.1 hc).elim (hs c) (ht c)

theorem Blank.reverse {t : List Char} (h : Blank t) : Blank t.reverse := by
  intro c hc
  exact h c (List.mem_reverse.1 hc)

private theorem dropWhile_blank_append {u : List Char} (hu : Blank u) (t : List Char) :
    (u ++ t).dropWhile isBlank = t.dropWhile isBlank := by
  induction u with
  | nil => rfl
  | cons c u ih =>
    rw [List.cons_append, List.dropWhile_cons, if_pos (hu c (by simp))]
    exact ih fun d hd => hu d (by simp [hd])

private theorem dropWhile_of_head {t : List Char} (h : ∀ c ∈ t.head?, isBlank c = false) :
    t.dropWhile isBlank = t := by
  cases t with
  | nil => rfl
  | cons c t => rw [List.dropWhile_cons, if_neg (by simp [h c rfl])]

theorem Trimmed.reverse {t : List Char} (h : Trimmed t) : Trimmed t.reverse :=
  ⟨fun c hc => h.last c (by simpa using hc), fun c hc => h.head c (by simpa using hc)⟩

/-- Blanks in front make no difference to what is left without them. -/
theorem trimStart_append {u : List Char} (hu : Blank u) (t : List Char) :
    trimStart (u ++ t) = trimStart t := dropWhile_blank_append hu t

theorem Blank.trimStart {u : List Char} (hu : Blank u) : trimStart u = [] := by
  simpa [Text.trimStart] using dropWhile_blank_append hu []

theorem trimStart_pad {u t : List Char} (hu : Blank u) (ht : Trimmed t) (v : List Char)
    (hne : t ≠ []) : trimStart (u ++ (t ++ v)) = t ++ v := by
  rw [trimStart, dropWhile_blank_append hu]
  apply dropWhile_of_head
  intro c hc
  apply ht.head c
  cases t with
  | nil => exact absurd rfl hne
  | cons d t => simpa using hc

/-- Blanks around a trimmed text go, and nothing else. -/
theorem trim_pad {u t v : List Char} (hu : Blank u) (ht : Trimmed t) (hv : Blank v) :
    trim (u ++ (t ++ v)) = t := by
  have hstart : trimStart (u ++ (t ++ v)) = if t = [] then [] else t ++ v := by
    split
    · rename_i h
      subst h
      exact (hu.append hv).trimStart
    · rename_i h
      exact trimStart_pad hu ht v h
  rw [trim, hstart]
  split
  · rename_i h
    simp [h, trimEnd]
  · rw [trimEnd, List.reverse_append, dropWhile_blank_append hv.reverse,
      dropWhile_of_head ht.reverse.head, List.reverse_reverse]

theorem Trimmed.trim_eq {t : List Char} (h : Trimmed t) : trim t = t := by
  simpa using trim_pad blank_nil h blank_nil

private theorem not_blank_of_mem_head?_dropWhile (t : List Char) :
    ∀ c ∈ (t.dropWhile isBlank).head?, isBlank c = false := by
  intro c hc
  have h := List.head?_dropWhile_not isBlank t
  rw [Option.mem_def.1 hc] at h
  simpa using h

/-- Trimming leaves no blank at the ends. -/
theorem trimmed_trim (t : List Char) : Trimmed (trim t) := by
  refine ⟨fun c hc => ?_, fun c hc => ?_⟩
  · apply not_blank_of_mem_head?_dropWhile t c
    have hpre : trim t <+: trimStart t := by
      rw [trim, trimEnd, ← List.reverse_suffix, List.reverse_reverse]
      exact List.dropWhile_suffix isBlank
    obtain ⟨rest, hrest⟩ := hpre
    obtain ⟨u, hu⟩ := List.head?_eq_some_iff.1 hc
    have hstart : trimStart t = c :: (u ++ rest) := by rw [← hrest, hu, List.cons_append]
    rw [← trimStart, hstart]
    rfl
  · apply not_blank_of_mem_head?_dropWhile (trimStart t).reverse c
    rwa [trim, trimEnd, List.getLast?_reverse] at hc

/-- What trimming takes off is blank. -/
theorem exists_pad (t : List Char) : ∃ u v, Blank u ∧ Blank v ∧ t = u ++ (trim t ++ v) := by
  have hfront : Blank (t.takeWhile isBlank) := fun c hc => List.all_eq_true.1 List.all_takeWhile c hc
  have hback : Blank ((trimStart t).reverse.takeWhile isBlank).reverse := by
    have hb : Blank ((trimStart t).reverse.takeWhile isBlank) := fun c hc =>
      List.all_eq_true.1 List.all_takeWhile c hc
    exact hb.reverse
  refine ⟨_, _, hfront, hback, ?_⟩
  rw [trim, trimEnd, ← List.reverse_append, List.takeWhile_append_dropWhile, List.reverse_reverse,
    trimStart, List.takeWhile_append_dropWhile]

theorem infix_trim (t : List Char) : trim t <:+: t := by
  obtain ⟨u, v, -, -, ht⟩ := exists_pad t
  exact ⟨u, v, by rw [List.append_assoc]; exact ht.symm⟩

theorem length_trim_le (t : List Char) : (trim t).length ≤ t.length := by
  have hdrop (s : List Char) : (s.dropWhile isBlank).length ≤ s.length :=
    (List.dropWhile_suffix isBlank).length_le
  have h := hdrop (trimStart t).reverse
  simp only [List.length_reverse] at h
  rw [trim, trimEnd, List.length_reverse]
  exact Nat.le_trans h (hdrop t)

/-- Ends that are no blanks make a text trimmed, whatever stands between them. -/
theorem Trimmed.between {s r : List Char} (hs : Trimmed s) (hr : Trimmed r) (hsne : s ≠ [])
    (hrne : r ≠ []) (t : List Char) : Trimmed (s ++ (t ++ r)) := by
  refine ⟨fun c hc => hs.head c ?_, fun c hc => hr.last c ?_⟩
  · cases s with
    | nil => exact absurd rfl hsne
    | cons d s => simpa using hc
  · rw [← List.append_assoc, List.getLast?_append] at hc
    cases h : r.getLast? with
    | none => exact absurd (List.getLast?_eq_none_iff.1 h) hrne
    | some d => simpa [h] using hc

theorem trimmed_singleton {c : Char} (h : isBlank c = false) : Trimmed [c] := by
  refine ⟨fun d hd => ?_, fun d hd => ?_⟩
  all_goals
    simp only [List.head?_cons, List.getLast?_singleton, Option.mem_some_iff] at hd
    rwa [← hd]

theorem trimmed_cons_concat {a b : Char} (ha : isBlank a = false) (hb : isBlank b = false)
    (t : List Char) : Trimmed (a :: (t ++ [b])) :=
  (trimmed_singleton ha).between (trimmed_singleton hb) (by simp) (by simp) t

theorem trimmed_of_no_blank {t : List Char} (h : ∀ c ∈ t, isBlank c = false) : Trimmed t :=
  ⟨fun c hc => h c (List.mem_of_mem_head? hc), fun c hc => h c (List.mem_of_mem_getLast? hc)⟩

theorem trimStart_append_cons {u : List Char} {c : Char} (hu : Blank u) (hc : isBlank c = false)
    (v : List Char) : trimStart (u ++ c :: v) = c :: v := by
  simpa using trimStart_pad hu (trimmed_singleton hc) v (by simp)

theorem slice_append_left (a b c : List Char) :
    slice (a ++ (b ++ c)) a.length (a.length + b.length) = b := by
  rw [slice, ← List.append_assoc, ← List.length_append, List.take_left, List.drop_left]

theorem startsWith_append_self (t rest : List Char) : startsWith (t ++ rest) t = true := by
  rw [startsWith, List.isPrefixOf_iff_prefix]
  exact List.prefix_append t rest

/-- What follows is of no account if it begins with none of the characters. -/
theorem startsWith_append {n rest : List Char} (h : ∀ c ∈ rest.head?, c ∉ n) (t : List Char) :
    startsWith (t ++ rest) n = startsWith t n := by
  induction n generalizing t with
  | nil => cases t <;> cases rest <;> rfl
  | cons c n ih =>
    cases t with
    | nil =>
      cases rest with
      | nil => rfl
      | cons d rest =>
        have hd : c ≠ d := fun he => h d rfl (by simp [he])
        simp [startsWith, List.isPrefixOf, hd]
    | cons d t =>
      have htail := ih (fun b hb hm => h b hb (List.mem_cons_of_mem _ hm)) t
      simp only [startsWith, List.cons_append, List.isPrefixOf] at htail ⊢
      rw [htail]

theorem eq_of_dropHead? {head t rest : List Char} (h : dropHead? head t = some rest) :
    t = head ++ rest := by
  rw [dropHead?] at h
  split at h
  · rename_i hs
    obtain ⟨r, rfl⟩ := List.isPrefixOf_iff_prefix.1 hs
    simpa using h
  · cases h

theorem startsWith_of_head {t : List Char} {c : Char} (h : t.head? ≠ some c) (n : List Char) :
    startsWith t (c :: n) = false := by
  cases t with
  | nil => rfl
  | cons d t =>
    have hd : (c == d) = false := by
      rw [beq_eq_false_iff_ne]
      rintro rfl
      exact h rfl
    simp [startsWith, List.isPrefixOf, hd]

end JsxToJinja.Text

namespace JsxToJinja
open JsxToJinja.Text

/-- Blanks between two tokens. -/
structure Gap where
  chars : List Char
  blank : Blank chars

def Gap.none : Gap := ⟨[], blank_nil⟩

def Gap.space : Gap := ⟨[' '], blank_space⟩

end JsxToJinja
