import JsxToJinja.Number.Basic

/-! Whole numbers in decimal notation: the spelling is digits behind at most a sign, no two numbers
share one, and reading gives the number back. -/
namespace JsxToJinja.Number

def spelled (n : Int) : List Char := (toString n).toList

theorem spelled_eq (n : Int) :
    spelled n = if 0 ≤ n then Nat.toDigits 10 n.toNat else '-' :: Nat.toDigits 10 (-n).toNat := by
  rw [spelled, Int.toString_eq_repr, Int.repr_eq_if]
  split <;> simp

theorem isDigit_of_mem {c : Char} {n : Nat} (h : c ∈ Nat.toDigits 10 n) :
    c.isDigit = true := Nat.isDigit_of_mem_toDigits (by decide) (by decide) h

theorem spelled_ne_nil (n : Int) : spelled n ≠ [] := by
  rw [spelled_eq]
  split <;> simp

theorem mem_spelled {n : Int} {c : Char} (h : c ∈ spelled n) : c.isDigit = true ∨ c = '-' := by
  rw [spelled_eq] at h
  split at h
  · exact .inl (isDigit_of_mem h)
  · rcases List.mem_cons.1 h with rfl | h
    · exact .inr rfl
    · exact .inl (isDigit_of_mem h)

private theorem toDigits_injective {m n : Nat} (h : Nat.toDigits 10 m = Nat.toDigits 10 n) :
    m = n := by
  have hv := congrArg (Nat.ofDigitChars 10 · 0) h
  simpa using hv

private theorem minus_notMem (n : Nat) : '-' ∉ Nat.toDigits 10 n := fun h =>
  absurd (isDigit_of_mem h) (by decide)

/-- Two whole numbers are never spelled alike. -/
theorem spelled_injective {m n : Int} (h : spelled m = spelled n) : m = n := by
  rw [spelled_eq, spelled_eq] at h
  split at h <;> split at h
  · have := toDigits_injective h
    omega
  · exact absurd (h ▸ List.mem_cons_self) (minus_notMem m.toNat)
  · exact absurd (h.symm ▸ List.mem_cons_self) (minus_notMem n.toNat)
  · have := toDigits_injective (List.cons.inj h).2
    omega

/-! ### Reading a spelling -/

theorem digitsValue_eq (ds : List Char) : digitsValue ds = Nat.ofDigitChars 10 ds 0 := by
  simp [digitsValue, Nat.ofDigitChars, Nat.mul_comm]

/-- The integer that digits stand for behind at most a sign. -/
def integer : List Char → Int
  | '-' :: ds => -(digitsValue ds : Int)
  | ds => digitsValue ds

private theorem le_ofDigitChars (ds : List Char) (v : Nat) : v ≤ Nat.ofDigitChars 10 ds v := by
  induction ds generalizing v with
  | nil => simp
  | cons c ds ih =>
    rw [Nat.ofDigitChars_cons]
    exact Nat.le_trans (by omega) (ih _)

private theorem fitting_eq {ds : List Char} {v : Nat} (h : Nat.ofDigitChars 10 ds v < wordLimit) :
    fitting v ds = (Nat.ofDigitChars 10 ds v, 0) := by
  induction ds generalizing v with
  | nil => simp [fitting]
  | cons c ds ih =>
    have hnext : 10 * v + (c.toNat - '0'.toNat) = v * 10 + (c.toNat - 48) := by
      rw [Nat.mul_comm]
      rfl
    rw [Nat.ofDigitChars_cons, hnext] at h ⊢
    rw [fitting, if_pos (Nat.lt_of_le_of_lt (le_ofDigitChars ds _) h), ih h]

/-- Only zero is spelled with a zero in front. -/
theorem head?_toDigits (n : Nat) (h : (Nat.toDigits 10 n).head? = some '0') :
    (Nat.toDigits 10 n).length = 1 := by
  induction n using Nat.strongRecOn with
  | ind n ih =>
    rw [Nat.toDigits_eq_if (by decide)] at h ⊢
    split at h
    · rename_i hn
      simp [hn]
    · rename_i hn
      have hpos : 0 < n / 10 := Nat.div_pos (by omega) (by decide)
      have hhead : (Nat.toDigits 10 (n / 10)).head? = some '0' := by
        cases hd : Nat.toDigits 10 (n / 10) with
        | nil => exact absurd hd (by simp)
        | cons c cs => simpa [hd] using h
      -- one digit in front, and it is zero, so the front would be zero itself
      obtain ⟨c, hc⟩ := List.length_eq_one_iff.1 (ih (n / 10) (by omega) hhead)
      rw [hc, List.head?_cons, Option.some.injEq] at hhead
      have hzero : n / 10 = 0 := by
        have hv : Nat.ofDigitChars 10 (Nat.toDigits 10 (n / 10)) 0 = 0 := by
          rw [hc, hhead]
          rfl
        rwa [Nat.ofDigitChars_ten_toDigits] at hv
      omega

private theorem takeWhile_digits (n : Nat) :
    (Nat.toDigits 10 n).takeWhile Char.isDigit = Nat.toDigits 10 n ∧
      (Nat.toDigits 10 n).dropWhile Char.isDigit = [] := by
  have hall : ∀ c ∈ Nat.toDigits 10 n, c.isDigit = true := fun c hc => isDigit_of_mem hc
  generalize Nat.toDigits 10 n = ds at hall
  induction ds with
  | nil => simp
  | cons c ds ih =>
    have hc := hall c (by simp)
    simpa [hc] using ih fun d hd => hall d (by simp [hd])

private theorem read?_digits {n : Nat} (h : n < wordLimit) :
    read? (Nat.toDigits 10 n) = some (whole false n, []) ∧
      read? ('-' :: Nat.toDigits 10 n) = some (whole true n, []) := by
  obtain ⟨htake, hdrop⟩ := takeWhile_digits n
  have hlead : ¬ ((Nat.toDigits 10 n).isEmpty || ((Nat.toDigits 10 n).head? == some '0' &&
      1 < (Nat.toDigits 10 n).length)) = true := by
    simp only [Bool.or_eq_true, List.isEmpty_iff, Bool.and_eq_true, beq_iff_eq, decide_eq_true_eq,
      not_or, not_and]
    refine ⟨by simp, fun hz => ?_⟩
    have := head?_toDigits n hz
    omega
  have hfit : fitting 0 (Nat.toDigits 10 n) = (n, 0) := by
    have hvalue : Nat.ofDigitChars 10 (Nat.toDigits 10 n) 0 = n := Nat.ofDigitChars_ten_toDigits
    rw [fitting_eq (by rwa [hvalue]), hvalue]
  constructor
  · rw [read?]
    · simp only [htake, hdrop, if_neg hlead, hfit, if_true]
    · intro r hr
      exact minus_notMem n (hr ▸ List.mem_cons_self)
  · rw [read?]
    simp only [htake, hdrop, if_neg hlead, hfit, if_true]

theorem ne_nil_of_parse? {t : List Char} {n : Number} (h : parse? t = some n) : t ≠ [] := by
  rintro rfl
  cases h

/-- A whole number that fits a word is read back from its spelling. -/
theorem parse?_spelled {n : Int} (hlo : leastWord ≤ n) (hhi : n < wordLimit) :
    parse? (spelled n) = some (.int n) := by
  by_cases hn : 0 ≤ n
  · rw [spelled_eq, if_pos hn, parse?, (read?_digits (by omega)).1]
    simp only [whole, Bool.false_eq_true, if_false, Int.toNat_of_nonneg hn]
  · have hlow : (-n).toNat ≤ Nat.pow 2 63 := by
      simp only [leastWord] at hlo
      omega
    have hlim : Nat.pow 2 63 < wordLimit := by decide
    have hcond : ¬ (decide ((-n).toNat = 0) || decide (Nat.pow 2 63 < (-n).toNat)) = true := by
      simp only [Bool.or_eq_true, decide_eq_true_eq]
      omega
    rw [spelled_eq, if_neg hn, parse?, (read?_digits (by omega)).2]
    simp only [whole, if_true, if_neg hcond]
    congr 2
    omega

/-! ### What numbers are written with -/

def isNumeric (c : Char) : Bool := c.isDigit || ['-', '+', '.', 'e', 'E'].contains c

private theorem numeric_of_rest {t : List Char}
    (h : ∀ c ∈ t.dropWhile Char.isDigit, isNumeric c = true) : ∀ c ∈ t, isNumeric c = true := by
  intro c hc
  rw [← List.takeWhile_append_dropWhile (p := Char.isDigit) (l := t)] at hc
  rcases List.mem_append.1 hc with hc | hc
  · have hd : c.isDigit = true := List.all_eq_true.1 List.all_takeWhile c hc
    simp [isNumeric, hd]
  · exact h c hc

private theorem numeric_cons {d : Char} {t : List Char} (hd : isNumeric d = true)
    (h : ∀ c ∈ t, isNumeric c = true) : ∀ c ∈ d :: t, isNumeric c = true := by
  intro c hc
  rcases List.mem_cons.1 hc with rfl | hc
  · exact hd
  · exact h c hc

theorem numeric_exponent {c : Char} (h : (c == 'e' || c == 'E') = true) :
    isNumeric c = true := by
  simp only [Bool.or_eq_true, beq_iff_eq] at h
  rcases h with rfl | rfl <;> decide

private theorem numeric_of_exponentPart {negative : Bool} {s : Nat} {p : Int} {t : List Char}
    {n : Option Number} (h : exponentPart negative s p t = some (n, [])) :
    ∀ c ∈ t, isNumeric c = true := by
  have hdigits {t : List Char} {m : Option Number} (h : (if (t.takeWhile Char.isDigit).isEmpty = true then none
      else some (m, t.dropWhile Char.isDigit)) = some (n, [])) : ∀ c ∈ t, isNumeric c = true := by
    split at h
    · cases h
    · simp only [Option.some.injEq, Prod.mk.injEq] at h
      exact numeric_of_rest (by simp [h.2])
  unfold exponentPart at h
  split at h
  rename_i minus u hu
  split at hu
  · cases hu
    exact numeric_cons (by decide) (hdigits h)
  · cases hu
    exact numeric_cons (by decide) (hdigits h)
  · cases hu
    exact hdigits h

/-- A number is written with digits, signs, a point and an exponent only. -/
theorem numeric_of_read? {t : List Char} {n : Option Number}
    (h : read? t = some (n, [])) : ∀ c ∈ t, isNumeric c = true := by
  unfold read? at h
  split at h
  rename_i negative u hu
  have hbody : ∀ c ∈ u, isNumeric c = true := by
    apply numeric_of_rest
    dsimp only at h
    split at h
    · cases h
    · split at h
      · -- a fraction
        rename_i r hr
        rw [hr]
        refine numeric_cons (by decide) (numeric_of_rest ?_)
        split at h
        · cases h
        · split at h
          · rename_i c r' hr'
            rw [hr']
            split at h
            · rename_i he
              exact numeric_cons (numeric_exponent he) (numeric_of_exponentPart h)
            · simp [hr'] at h
          · rename_i hr'
            simp [hr']
      · rename_i c r _ hr
        rw [hr]
        split at h
        · rename_i he
          exact numeric_cons (numeric_exponent he) (numeric_of_exponentPart h)
        · split at h <;> simp [hr] at h
      · rename_i hr
        simp [hr]
  split at hu
  · cases hu
    exact numeric_cons (by decide) hbody
  · cases hu
    exact hbody

theorem numeric_of_parse? {t : List Char} {n : Number} (h : parse? t = some n) :
    ∀ c ∈ t, isNumeric c = true := by
  unfold parse? at h
  split at h
  · rename_i he
    exact numeric_of_read? he
  · cases h

/-! ### Words and doubles -/

private theorem fitting_lt {ds : List Char} {v : Nat} (h : v < wordLimit) :
    (fitting v ds).1 < wordLimit := by
  induction ds generalizing v with
  | nil => exact h
  | cons c ds ih =>
    rw [fitting]
    split
    · rename_i hnext
      exact ih hnext
    · exact h

private theorem decimal_ne_int {negative : Bool} {s : Nat} {p e i : Int} :
    decimal negative s p e ≠ some (.int i) := by
  simp [decimal]

private theorem exponentPart_ne_int {negative : Bool} {s : Nat} {p i : Int} {t r : List Char} :
    exponentPart negative s p t ≠ some (some (.int i), r) := by
  intro h
  unfold exponentPart at h
  split at h
  dsimp only at h
  split at h
  · cases h
  · simp only [Option.some.injEq, Prod.mk.injEq] at h
    exact decimal_ne_int h.1

private theorem word_of_whole {negative : Bool} {v : Nat} {i : Int} (hv : v < wordLimit)
    (h : whole negative v = some (.int i)) : leastWord ≤ i ∧ i < wordLimit := by
  have hlim : wordLimit = 18446744073709551616 := by decide
  have hleast : leastWord = -9223372036854775808 := by decide
  have hpow : Nat.pow 2 63 = 9223372036854775808 := by decide
  rw [whole] at h
  split at h
  · split at h
    · simp at h
    · rename_i hc
      simp only [Bool.or_eq_true, decide_eq_true_eq, not_or, hpow] at hc
      simp only [Option.some.injEq, int.injEq] at h
      omega
  · simp only [Option.some.injEq, int.injEq] at h
    omega

/-- What is read as a whole number fits a word. -/
theorem word_of_read? {t r : List Char} {i : Int} (hread : read? t = some (some (.int i), r)) :
    leastWord ≤ i ∧ i < wordLimit := by
  unfold read? at hread
  split at hread
  rename_i negative u hu
  have hfit : (fitting 0 (u.takeWhile Char.isDigit)).1 < wordLimit := fitting_lt (by decide)
  dsimp only at hread
  split at hread
  · cases hread
  · split at hread
    · split at hread
      · cases hread
      · split at hread
        · split at hread
          · exact absurd hread exponentPart_ne_int
          · simp [decimal_ne_int] at hread
        · simp [decimal_ne_int] at hread
    · split at hread
      · exact absurd hread exponentPart_ne_int
      · split at hread
        · simp only [Option.some.injEq, Prod.mk.injEq] at hread
          exact word_of_whole hfit hread.1
        · simp [decimal_ne_int] at hread
    · split at hread
      · simp only [Option.some.injEq, Prod.mk.injEq] at hread
        exact word_of_whole hfit hread.1
      · simp [decimal_ne_int] at hread

theorem word_of_parse? {t : List Char} {i : Int} (h : parse? t = some (.int i)) :
    leastWord ≤ i ∧ i < wordLimit := by
  unfold parse? at h
  split at h
  · rename_i he
    exact word_of_read? (h ▸ he)
  · cases h

/-- Doubles are written with a point or an exponent, so never as whole numbers are. -/
theorem text_double_ne_spelled (d : Double) (n : Int) : d.text.toList ≠ spelled n := by
  have hmark : '.' ∈ d.text.toList ∨ 'e' ∈ d.text.toList := by
    unfold Double.text
    dsimp only
    split
    · simp
    · split
      · split
        · simp
        · split <;> simp
      · simp
  intro h
  rw [h] at hmark
  rcases hmark with hm | hm <;> rcases mem_spelled hm with hd | hd <;> exact absurd hd (by decide)

/-- Numbers are written without braces. -/
theorem brace_notMem_text (n : Number) : '\x7b' ∉ n.text.toList := by
  cases n with
  | int i =>
    intro h
    rcases mem_spelled h with hd | hd <;> exact absurd hd (by decide)
  | double d =>
    have hdigits (n : Nat) : '\x7b' ∉ Nat.toDigits 10 n := fun h =>
      absurd (isDigit_of_mem h) (by decide)
    have htake (n k : Nat) : '\x7b' ∉ (Nat.toDigits 10 n).take k := fun h =>
      hdigits n (List.mem_of_mem_take h)
    have hdrop (n k : Nat) : '\x7b' ∉ (Nat.toDigits 10 n).drop k := fun h =>
      hdigits n (List.mem_of_mem_drop h)
    have hsign (b : Bool) : '\x7b' ∉ (if b then "-" else "").toList := by cases b <;> decide
    have hpoint (s : String) (h : '\x7b' ∉ s.toList) :
        '\x7b' ∉ (if s.isEmpty then "" else "." ++ s).toList := by
      split <;> simp [h]
    have hexponent (p : Prop) [Decidable p] : '\x7b' ∉ (if p then "-" else "+").toList := by
      split <;> decide
    rw [Number.text, Double.text]
    dsimp only
    split
    · simp [hsign]
    · split
      · split
        · simp [hsign, hdigits, Double.zeros]
        · split
          · simp [hsign, htake, hdrop]
          · simp [hsign, hdigits, Double.zeros]
      · simp only [String.toList_append, List.mem_append, not_or]
        refine ⟨⟨⟨⟨⟨hsign _, ?_⟩, hpoint _ ?_⟩, by decide⟩, hexponent _⟩, ?_⟩
        · simpa using htake _ 1
        · simpa using hdrop _ 1
        · simpa using hdigits _

end JsxToJinja.Number
