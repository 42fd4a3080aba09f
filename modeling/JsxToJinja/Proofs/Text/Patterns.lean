import JsxToJinja.Text.Pattern
import JsxToJinja.Proofs.Text.Trimmed

/-! Where patterns match: what a repetition and a word need, and how the matches of a text put
together from pieces follow one another. -/
namespace JsxToJinja.Text

theorem getLast?_cons_or (c : Char) (t : List Char) (before : Option Char) :
    (c :: t).getLast?.or before = t.getLast?.or (some c) := by
  rw [List.getLast?_cons]
  cases t.getLast? <;> rfl

theorem getLast?_append_or (u v : List Char) (before : Option Char) :
    v.getLast?.or (u.getLast?.or before) = (u ++ v).getLast?.or before := by
  rw [List.getLast?_append]
  cases v.getLast? <;> rfl

/-- A repetition matches when some run of accepted characters is long enough and what follows
matches. -/
theorem greedy_isSome {accepts : Char → Bool} {next : Cursor → Option α} {least i : Nat}
    {before : Option Char} {t : List Char} :
    (greedy accepts next least before i t).isSome = true ↔
      ∃ w rest, t = w ++ rest ∧ (∀ c ∈ w, accepts c = true) ∧ least ≤ w.length ∧
        (next ⟨w.getLast?.or before, i + w.length, rest⟩).isSome = true := by
  induction t generalizing least before i with
  | nil =>
    constructor
    · intro h
      cases least with
      | zero => exact ⟨[], [], rfl, by simp, by simp, h⟩
      | succ least => simp [greedy] at h
    · rintro ⟨w, rest, ht, -, hl, h⟩
      obtain ⟨rfl, rfl⟩ := List.append_eq_nil_iff.1 ht.symm
      obtain rfl : least = 0 := Nat.le_zero.1 hl
      exact h
  | cons c t ih =>
    -- either the first character is taken, or nothing is
    have hstep : (greedy accepts next least before i (c :: t)).isSome = true ↔
        (accepts c = true ∧ (greedy accepts next (least - 1) (some c) (i + 1) t).isSome = true) ∨
          (least = 0 ∧ (next ⟨before, i, c :: t⟩).isSome = true) := by
      rw [greedy]
      by_cases hc : accepts c = true
      · cases hg : greedy accepts next (least - 1) (some c) (i + 1) t with
        | none => by_cases hl : least = 0 <;> simp [hc, hl]
        | some found => simp [hc]
      · by_cases hl : least = 0 <;> simp [hc, hl]
    rw [hstep]
    constructor
    · rintro (⟨hc, h⟩ | ⟨rfl, h⟩)
      · obtain ⟨w, rest, rfl, hw, hl, hn⟩ := ih.1 h
        refine ⟨c :: w, rest, rfl, ?_, by simp only [List.length_cons]; omega, ?_⟩
        · intro d hd
          rcases List.mem_cons.1 hd with rfl | hd
          · exact hc
          · exact hw d hd
        · rw [getLast?_cons_or, List.length_cons, ← Nat.add_assoc, Nat.add_right_comm]
          exact hn
      · exact ⟨[], c :: t, rfl, by simp, by simp, h⟩
    · rintro ⟨w, rest, ht, hw, hl, hn⟩
      cases w with
      | nil =>
        rw [List.nil_append] at ht
        subst ht
        exact .inr ⟨Nat.le_zero.1 hl, hn⟩
      | cons d w =>
        rw [List.cons_append, List.cons.injEq] at ht
        obtain ⟨rfl, rfl⟩ := ht
        rw [getLast?_cons_or, List.length_cons, ← Nat.add_assoc, Nat.add_right_comm] at hn
        rw [List.length_cons] at hl
        exact .inl ⟨hw c (by simp), ih.2 ⟨w, rest, rfl, fun e he => hw e (by simp [he]),
          by omega, hn⟩⟩

/-- The longest run is tried first. -/
theorem greedy_eq_some {accepts : Char → Bool} {next : Cursor → Option α} {least i : Nat}
    {before : Option Char} {w rest : List Char} {found : α} (hw : ∀ c ∈ w, accepts c = true)
    (hr : ∀ c ∈ rest.head?, accepts c = false) (hl : least ≤ w.length)
    (hn : next ⟨w.getLast?.or before, i + w.length, rest⟩ = some found) :
    greedy accepts next least before i (w ++ rest) = some found := by
  induction w generalizing least before i with
  | nil =>
    obtain rfl : least = 0 := Nat.le_zero.1 hl
    cases rest with
    | nil => exact hn
    | cons c rest =>
      have hc : accepts c = false := hr c rfl
      simpa [greedy, hc] using hn
  | cons c w ih =>
    rw [getLast?_cons_or, List.length_cons, ← Nat.add_assoc, Nat.add_right_comm] at hn
    rw [List.length_cons] at hl
    have hle : least - 1 ≤ w.length := by omega
    have hrest := ih (fun d hd => hw d (by simp [hd])) hle hn
    rw [List.cons_append, greedy, if_pos (hw c (by simp)), hrest]

namespace Pattern

/-- A literal pattern matches just where its text stands. -/
theorem run_lit (s : String) (p : Cursor) (caps : Captures)
    (next : Cursor → Captures → Option α) :
    (lit s).run p caps next =
      if startsWith p.rest s.toList then
        next ⟨s.toList.getLast?.or p.before, p.index + s.toList.length,
          p.rest.drop s.toList.length⟩ caps
      else none := by
  rw [lit]
  generalize s.toList = cs
  induction cs generalizing p with
  | nil => simp [run, startsWith]
  | cons c cs ih =>
    obtain ⟨before, index, rest⟩ := p
    rw [List.foldr_cons, run, run]
    cases rest with
    | nil => simp [startsWith, List.isPrefixOf]
    | cons d t =>
      by_cases hd : d = c
      · subst hd
        simp only [beq_self_eq_true, if_true, ih]
        have hpre : startsWith (d :: t) (d :: cs) = startsWith t cs := by
          simp [startsWith, List.isPrefixOf]
        simp [getLast?_cons_or, hpre, Nat.add_assoc, Nat.add_comm 1]
      · have hpre : startsWith (d :: t) (c :: cs) = false := by
          simp [startsWith, List.isPrefixOf, Ne.symm hd]
        simp [hd, hpre]

/-- A pattern is found just when it matches at some place. -/
theorem searchFrom_isSome (p : Pattern) (before : Option Char) (i : Nat) (t : List Char) :
    (p.searchFrom before i t).isSome = true ↔ ∃ pre post, t = pre ++ post ∧
      (p.matchAt? ⟨pre.getLast?.or before, i + pre.length, post⟩).isSome = true := by
  induction t generalizing before i with
  | nil =>
    constructor
    · intro h
      exact ⟨[], [], rfl, by simpa [searchFrom] using h⟩
    · rintro ⟨pre, post, ht, h⟩
      obtain ⟨rfl, rfl⟩ := List.append_eq_nil_iff.1 ht.symm
      simpa [searchFrom] using h
  | cons c t ih =>
    rw [searchFrom]
    constructor
    · intro h
      split at h
      · rename_i m hm
        exact ⟨[], c :: t, rfl, by simp [hm]⟩
      · obtain ⟨pre, post, rfl, hm⟩ := (ih _ _).1 h
        refine ⟨c :: pre, post, rfl, ?_⟩
        rw [getLast?_cons_or, List.length_cons, ← Nat.add_assoc, Nat.add_right_comm]
        exact hm
    · rintro ⟨pre, post, ht, hm⟩
      split
      · rfl
      · rename_i hnone
        cases pre with
        | nil =>
          rw [List.nil_append] at ht
          subst ht
          simp [hnone] at hm
        | cons d pre =>
          rw [List.cons_append, List.cons.injEq] at ht
          obtain ⟨rfl, rfl⟩ := ht
          rw [getLast?_cons_or, List.length_cons, ← Nat.add_assoc, Nat.add_right_comm] at hm
          exact (ih _ _).2 ⟨pre, post, rfl, hm⟩

/-! ### Matches one after the other -/

def matchesFrom (p : Pattern) (before : Option Char) (i : Nat) (t : List Char) : List Match :=
  p.collect i before i t

theorem collect_of_le (p : Pattern) {resume i : Nat} (h : resume ≤ i) (before : Option Char)
    (t : List Char) : p.collect resume before i t = p.matchesFrom before i t := by
  have hany {resume resume' i : Nat} (h : resume ≤ i) (h' : resume' ≤ i) (before : Option Char) :
      p.collect resume before i t = p.collect resume' before i t := by
    induction t generalizing before i with
    | nil => rw [collect, collect, if_pos h, if_pos h']
    | cons c t ih =>
      rw [collect, collect, if_pos h, if_pos h']
      split
      · rfl
      · exact ih (by omega) (by omega) (some c)
  exact hany h (Nat.le_refl i) before

/-- Characters of a match are not tried again. -/
theorem collect_skip (p : Pattern) {resume i : Nat} {w : List Char} (h : i + w.length ≤ resume)
    (before : Option Char) (rest : List Char) :
    p.collect resume before i (w ++ rest) =
      p.collect resume (w.getLast?.or before) (i + w.length) rest := by
  induction w generalizing before i with
  | nil => rfl
  | cons c w ih =>
    simp only [List.length_cons] at h
    rw [List.cons_append, collect, if_neg (by omega), ih (by omega), getLast?_cons_or, List.length_cons,
      ← Nat.add_assoc, Nat.add_right_comm]

/-- No match starts in the text, whatever part of it is behind. -/
def Misses (p : Pattern) (before : Option Char) (w rest : List Char) : Prop :=
  ∀ u v i, w = u ++ v → v ≠ [] → p.matchAt? ⟨u.getLast?.or before, i, v ++ rest⟩ = none

/-- A text without a match is passed over. -/
theorem matchesFrom_miss {p : Pattern} {before : Option Char} {w rest : List Char}
    (h : p.Misses before w rest) (i : Nat) :
    p.matchesFrom before i (w ++ rest) =
      p.matchesFrom (w.getLast?.or before) (i + w.length) rest := by
  induction w generalizing before i with
  | nil => rfl
  | cons c w ih =>
    have hnone : p.matchAt? ⟨before, i, c :: (w ++ rest)⟩ = none := h [] (c :: w) i rfl (by simp)
    have hrest : p.Misses (some c) w rest := by
      rintro u v j rfl hv
      have := h (c :: u) v j rfl hv
      rwa [getLast?_cons_or] at this
    rw [List.cons_append, matchesFrom, collect, if_pos (Nat.le_refl i)]
    simp only [hnone]
    rw [collect_of_le p (Nat.le_succ i), ih hrest, getLast?_cons_or, List.length_cons, ← Nat.add_assoc,
      Nat.add_right_comm]

theorem matchesFrom_eq_nil {p : Pattern} {before : Option Char} {w : List Char}
    (h : p.Misses before w []) (hend : ∀ before i, p.matchAt? ⟨before, i, []⟩ = none) (i : Nat) :
    p.matchesFrom before i w = [] := by
  have hnone := matchesFrom_miss h i
  rw [List.append_nil] at hnone
  rw [hnone, matchesFrom, collect, if_pos (Nat.le_refl _), hend]
  rfl

/-- Two texts without a match have none together. -/
theorem Misses.append {p : Pattern} {before : Option Char} {w w' rest : List Char}
    (h : p.Misses before w (w' ++ rest)) (h' : p.Misses (w.getLast?.or before) w' rest) :
    p.Misses before (w ++ w') rest := by
  intro u v i he hv
  rcases List.append_eq_append_iff.1 he with ⟨m, rfl, rfl⟩ | ⟨m, rfl, rfl⟩
  · rw [← getLast?_append_or]
    exact h' m v i rfl hv
  · cases m with
    | nil =>
      have := h' [] w' i rfl (by simpa using hv)
      simpa using this
    | cons c m =>
      rw [List.append_assoc]
      exact h u (c :: m) i rfl (by simp)

/-- A match takes its text, and the search goes on behind it. -/
theorem matchesFrom_hit {p : Pattern} {before : Option Char} {i : Nat} {w rest : List Char}
    {caps : Captures} (hw : w ≠ [])
    (h : p.matchAt? ⟨before, i, w ++ rest⟩ = some ⟨i, i + w.length, caps⟩) :
    p.matchesFrom before i (w ++ rest) =
      ⟨i, i + w.length, caps⟩ :: p.matchesFrom (w.getLast?.or before) (i + w.length) rest := by
  cases w with
  | nil => exact absurd rfl hw
  | cons c w =>
    rw [List.cons_append] at h ⊢
    have hmax : max (i + (c :: w).length) (i + 1) = i + (c :: w).length := by
      simp only [List.length_cons]
      omega
    have hlen : i + (c :: w).length = i + 1 + w.length := by
      simp only [List.length_cons]
      omega
    rw [matchesFrom, collect, if_pos (Nat.le_refl i)]
    simp only [h]
    rw [hmax, hlen, collect_skip p (Nat.le_refl _), getLast?_cons_or, matchesFrom]

end Pattern

end JsxToJinja.Text
