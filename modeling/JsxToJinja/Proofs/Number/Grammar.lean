import JsxToJinja.Proofs.Number.Reading

/-! What is written for a number is a number by the grammar: no leading zeros, digits on both sides
of a point and behind an exponent. -/
namespace JsxToJinja

namespace Double

/-! ### The digits are not all zero -/

private theorem pow_length_le {n : Nat} (h : 0 < n) :
    Nat.pow 10 ((Nat.toDigits 10 n).length - 1) ≤ n := by
  induction n using Nat.strongRecOn with
  | ind n ih =>
    rw [Nat.toDigits_eq_if (by decide)]
    split
    · exact Nat.succ_le_of_lt h
    · rename_i hn
      have hpos : 0 < n / 10 := Nat.div_pos (by omega) (by decide)
      have hlen : (Nat.toDigits 10 (n / 10)).length ≠ 0 := by simp
      obtain ⟨k, hk⟩ := Nat.exists_eq_succ_of_ne_zero hlen
      have hdiv := ih (n / 10) (by omega) hpos
      rw [hk] at hdiv
      simp only [List.length_append, List.length_singleton, Nat.add_sub_cancel, hk]
      calc Nat.pow 10 (k + 1) = Nat.pow 10 k * 10 := rfl
        _ ≤ n / 10 * 10 := Nat.mul_le_mul_right 10 hdiv
        _ ≤ n := Nat.div_mul_le_self n 10

private theorem length_toString (n : Nat) : (toString n).length = (Nat.toDigits 10 n).length := by
  simp [← String.length_toList]

private theorem pow_leadingExponent_le {n den : Nat} (hden : 0 < den)
    (h : 0 < leadingExponent n den) :
    Nat.pow 10 (leadingExponent n den).toNat * den ≤ n := by
  by_cases hle : den ≤ n
  · rw [leadingExponent, if_pos hle] at h ⊢
    have hq : 0 < n / den := Nat.div_pos hle hden
    have hpow := pow_length_le hq
    have hexp : (((toString (n / den)).length : Int) - 1).toNat =
        (Nat.toDigits 10 (n / den)).length - 1 := by
      rw [length_toString]
      omega
    rw [hexp]
    exact Nat.le_trans (Nat.mul_le_mul_right den hpow) (Nat.div_mul_le_self n den)
  · exfalso
    have hlen : (Nat.toDigits 10 (den / n)).length ≠ 0 := by simp
    rw [leadingExponent, if_neg hle, length_toString] at h
    dsimp only at h
    split at h <;> omega

section

variable {i : Interval}

private theorem candidate_ne_zero {unit : Int} {d : Nat} (hlow : 0 < i.low)
    (h : candidate i unit = some d) : d ≠ 0 := by
  rintro rfl
  unfold candidate at h
  extract_lets num den inside a b at h
  have hden : 0 < den := by
    simp only [den]
    split
    · decide
    · exact Nat.pow_pos (by decide)
  have hzero : inside 0 = false := by
    have := Nat.mul_pos hlow hden
    simp only [inside, Nat.zero_mul]
    split
    · rw [decide_eq_false (by omega), Bool.false_and]
    · rw [decide_eq_false (by omega), Bool.false_and]
  split at h
  · rename_i ha hb
    rw [Option.some.injEq, closer] at h
    split at h
    · rw [h, hzero] at ha
      cases ha
    · rw [h, hzero] at hb
      cases hb
  · rename_i ha hb
    rw [Option.some.injEq] at h
    rw [h, hzero] at ha
    cases ha
  · simp [b] at h
  · cases h

private theorem candidate_isSome {unit : Int} (hunit : 0 < unit) (hlow : i.low < i.value)
    (hden : 0 < i.den) (hfine : i.value + Nat.pow 10 unit.toNat * i.den < i.high) :
    (candidate i unit).isSome := by
  unfold candidate
  extract_lets num den inside a b
  have hn : num = Nat.pow 10 unit.toNat := if_pos (Int.le_of_lt hunit)
  have hd : den = 1 := if_pos (Int.le_of_lt hunit)
  -- the first point above the value
  have hb : inside b = true := by
    have hstep : 0 < num * i.den := Nat.mul_pos (hn ▸ Nat.pow_pos (by decide)) hden
    have hlt : i.value < num * i.den * b := by
      have := Nat.lt_mul_div_succ i.value hstep
      simpa only [b, a, hd, Nat.mul_one] using this
    have hle : num * i.den * b ≤ i.value + num * i.den := by
      have := Nat.mul_div_le i.value (num * i.den)
      simp only [b, a, hd, Nat.mul_one, Nat.mul_add]
      omega
    have hx : b * num * i.den = num * i.den * b := by
      rw [Nat.mul_assoc, Nat.mul_comm]
    rw [← hn] at hfine
    simp only [inside, hd, Nat.mul_one, hx]
    split <;> simp <;> omega
  rw [hb]
  cases inside a <;> rfl

private theorem search_ne_zero {lead : Int} (hlow : 0 < i.low) (fuel count : Nat)
    (hlast : 0 < lead - (count + fuel : Nat) + 1 →
      (candidate i (lead - (count + fuel : Nat) + 1)).isSome)
    (hunit : 0 < (search i lead fuel count).2) : (search i lead fuel count).1 ≠ 0 := by
  induction fuel generalizing count with
  | zero =>
    rw [search] at hunit ⊢
    obtain ⟨d, hd⟩ := Option.isSome_iff_exists.1 (hlast hunit)
    rw [Nat.add_zero] at hd
    simpa [hd] using candidate_ne_zero hlow hd
  | succ fuel ih =>
    rw [search] at hunit ⊢
    split
    · rename_i d hd
      exact candidate_ne_zero hlow hd
    · rename_i hd
      rw [hd] at hunit
      exact ih (count + 1) (by rwa [Nat.add_right_comm, Nat.add_assoc]) hunit

end

private theorem parts_bounds {magnitude : Nat} (h : magnitude ≠ 0) :
    0 < (parts magnitude).1 ∧ (parts magnitude).1 < 2 * fractionSize := by
  have hsize : 0 < fractionSize := by decide
  have hmod := Nat.mod_lt magnitude hsize
  rw [parts]
  split
  · rename_i hzero
    have := Nat.lt_of_div_eq_zero hsize hzero
    dsimp only
    omega
  · dsimp only
    omega

private theorem shortest_ne_zero {magnitude : Nat} (h : magnitude ≠ 0)
    (hunit : 0 < (shortest magnitude).2) : (shortest magnitude).1 ≠ 0 := by
  obtain ⟨hpos, hlt⟩ := parts_bounds h
  rw [shortest, if_neg h] at hunit ⊢
  generalize hi : interval magnitude = i at hunit ⊢
  rw [interval] at hi
  generalize parts magnitude = p at hpos hlt hi
  obtain ⟨m, e⟩ := p
  dsimp only at hpos hlt hi
  generalize hbelow :
    (if (decide (m = fractionSize) && decide (0 < e)) = true then 1 else 2) = below at hi
  generalize hscale : (if 1074 ≤ e then Nat.pow 2 (e - 1074) else 1) = scale at hi
  generalize hden : (if 1074 ≤ e then 4 else 4 * Nat.pow 2 (1074 - e)) = den at hi
  have hbelow' : 1 ≤ below ∧ below ≤ 2 := by
    rw [← hbelow]
    split <;> decide
  have hscale' : 0 < scale := by
    rw [← hscale]
    split
    · exact Nat.pow_pos (by decide)
    · decide
  have hden' : 0 < den := by
    rw [← hden]
    split
    · decide
    · exact Nat.mul_pos (by decide) (Nat.pow_pos (by decide))
  subst hi
  -- eighteen digits are finer than the distance to the next magnitude
  refine search_ne_zero (Nat.mul_pos (by omega) hscale') 17 1 (fun hlast => ?_) hunit
  refine candidate_isSome hlast (Nat.mul_lt_mul_of_pos_right (by omega) hscale') hden' ?_
  dsimp only at hlast ⊢
  have hlead := pow_leadingExponent_le (n := 4 * m * scale) hden' (by omega)
  generalize leadingExponent (4 * m * scale) den = lead at hlast hlead
  obtain ⟨u, hu⟩ : ∃ u : Nat, (lead - (1 + 17 : Nat) + 1).toNat = u := ⟨_, rfl⟩
  have hexp : lead.toNat = u + 17 := by omega
  rw [hu]
  have hsplit : Nat.pow 10 (u + 17) = Nat.pow 10 u * Nat.pow 10 17 := Nat.pow_add 10 u 17
  rw [hexp, hsplit] at hlead
  have hm : m < 9007199254740992 := hlt
  have hbound : 4 * m < 2 * Nat.pow 10 17 := by
    have hpow : Nat.pow 10 17 = 100000000000000000 := by decide
    omega
  have hstep : Nat.pow 10 u * den < 2 * scale := by
    refine Nat.lt_of_mul_lt_mul_right (a := Nat.pow 10 17) ?_
    calc Nat.pow 10 u * den * Nat.pow 10 17 = Nat.pow 10 u * Nat.pow 10 17 * den :=
          Nat.mul_right_comm ..
      _ ≤ 4 * m * scale := hlead
      _ < 2 * Nat.pow 10 17 * scale := Nat.mul_lt_mul_of_pos_right hbound hscale'
      _ = 2 * scale * Nat.pow 10 17 := Nat.mul_right_comm ..
  rw [Nat.add_mul]
  omega

private theorem eq_zero_of_dropZeros {fuel d : Nat} {e : Int} (h : (dropZeros fuel d e).1 = 0) :
    d = 0 ∧ dropZeros fuel d e = (0, e) := by
  induction fuel generalizing d e with
  | zero =>
    rw [dropZeros] at h ⊢
    exact ⟨h, by rw [← h]⟩
  | succ fuel ih =>
    rw [dropZeros] at h ⊢
    split at h
    · rename_i hd
      simp only [Bool.and_eq_true, decide_eq_true_eq, beq_iff_eq] at hd
      have := (ih h).1
      omega
    · rename_i hd
      dsimp only at h
      rw [if_neg hd]
      exact ⟨h, by rw [h]⟩

end Double

namespace Number

/-! ### Texts that are numbers by the grammar -/

/-- Digits, at least one. -/
def IsDigits (t : List Char) : Prop := t ≠ [] ∧ ∀ c ∈ t, c.isDigit = true

def IsExponent (t : List Char) : Prop := t = [] ∨
  ∃ sign ds, (sign = '+' ∨ sign = '-') ∧ IsDigits ds ∧ t = 'e' :: sign :: ds

/-- A text is read as one number to its end, whatever the number is. -/
def IsNumber (t : List Char) : Prop := ∃ n, read? t = some (n, [])

private theorem digits_front {ds rest : List Char} (h : IsDigits ds)
    (hrest : ∀ c ∈ rest.head?, c.isDigit = false) :
    (ds ++ rest).takeWhile Char.isDigit = ds ∧ (ds ++ rest).dropWhile Char.isDigit = rest := by
  rw [List.takeWhile_append_of_pos h.2, List.dropWhile_append_of_pos h.2]
  cases rest with
  | nil => simp
  | cons c rest => simp [hrest c rfl]

private theorem unsigned_digits {ds rest : List Char} (hds : IsDigits ds)
    (hlead : ds.head? = some '0' → ds.length = 1) (hrest : ∀ c ∈ rest.head?, c.isDigit = false)
    (negative : Bool) : unsigned negative (ds ++ rest) =
      behindDigits negative (fitting 0 ds).1 (fitting 0 ds).2 rest := by
  obtain ⟨htake, hdrop⟩ := digits_front hds hrest
  have hcond : ¬ (ds.isEmpty || (ds.head? == some '0' && 1 < ds.length)) = true := by
    have hne := hds.1
    simp only [Bool.or_eq_true, List.isEmpty_iff, Bool.and_eq_true, beq_iff_eq, decide_eq_true_eq,
      not_or, not_and]
    exact ⟨hne, fun hz => by rw [hlead hz]; decide⟩
  rw [unsigned]
  simp only [htake, hdrop, if_neg hcond]

private theorem beforeExponent_all {x : List Char} (hx : IsExponent x) (plain : Option Number)
    (negative : Bool) (s : Nat) (point : Int) :
    ∃ n, beforeExponent plain (exponentPart negative s point) x = some (n, []) := by
  obtain rfl | ⟨sign, ds, hsign, hds, rfl⟩ := hx
  · exact ⟨plain, rfl⟩
  · obtain ⟨htake, hdrop⟩ := @digits_front ds [] hds (by simp)
    rw [List.append_nil] at htake hdrop
    rw [beforeExponent, if_pos (by decide)]
    obtain rfl | rfl := hsign
    · rw [exponentPart, htake, hdrop, if_neg (by simpa using hds.1)]
      exact ⟨_, rfl⟩
    · rw [exponentPart, htake, hdrop, if_neg (by simpa using hds.1)]
      exact ⟨_, rfl⟩

private theorem IsExponent.head {x : List Char} (hx : IsExponent x) :
    ∀ c ∈ x.head?, c = 'e' := by
  obtain rfl | ⟨sign, ds, -, -, rfl⟩ := hx
  · simp
  · simp

private theorem isNumber_of_unsigned {t : List Char} (negative : Bool) (hhead : ∀ r, t ≠ '-' :: r)
    (h : ∀ negative, ∃ n, unsigned negative t = some (n, [])) :
    IsNumber ((if negative then "-" else "").toList ++ t) := by
  cases negative with
  | true => exact (h true).imp fun n hn => (read?_minus t).trans hn
  | false => exact (h false).imp fun n hn => (read?_of_no_minus hhead).trans hn

private theorem no_minus_of_digits {ds : List Char} (h : IsDigits ds) (rest r : List Char) :
    ds ++ rest ≠ '-' :: r := by
  obtain ⟨hne, hall⟩ := h
  cases ds with
  | nil => exact absurd rfl hne
  | cons d ds =>
    intro he
    have hd := hall d (by simp)
    rw [(List.cons.inj he).1] at hd
    exact absurd hd (by decide)

section

variable {ds x : List Char} (hds : IsDigits ds) (hlead : ds.head? = some '0' → ds.length = 1)
  (hx : IsExponent x) (negative : Bool)
include hds hlead hx

theorem isNumber_fraction {fs : List Char} (hfs : IsDigits fs) :
    IsNumber ((if negative then "-" else "").toList ++ (ds ++ '.' :: (fs ++ x))) := by
  refine isNumber_of_unsigned negative (no_minus_of_digits hds _) fun negative => ?_
  have hrest : ∀ c ∈ x.head?, c.isDigit = false := fun c hc => by
    rw [hx.head c hc]
    decide
  obtain ⟨htake, hdrop⟩ := digits_front hfs hrest
  rw [unsigned_digits hds hlead (by simp), behindDigits]
  simp only [htake, hdrop]
  rw [if_neg (by simpa using hfs.1)]
  exact beforeExponent_all hx _ _ _ _

theorem isNumber_digits : IsNumber ((if negative then "-" else "").toList ++ (ds ++ x)) := by
  refine isNumber_of_unsigned negative (no_minus_of_digits hds _) fun negative => ?_
  have hrest : ∀ c ∈ x.head?, c.isDigit = false := fun c hc => by
    rw [hx.head c hc]
    decide
  rw [unsigned_digits hds hlead hrest, behindDigits.eq_2]
  · exact beforeExponent_all hx _ _ _ _
  · rintro r rfl
    exact absurd (hx.head '.' rfl) (by decide)

end

private theorem isDigits_toDigits (n : Nat) : IsDigits (Nat.toDigits 10 n) :=
  ⟨by simp, fun _ => isDigit_of_mem⟩

private theorem eq_zero_of_head {n : Nat} (h : (Nat.toDigits 10 n).head? = some '0') : n = 0 := by
  obtain ⟨c, hc⟩ := List.length_eq_one_iff.1 (head?_toDigits n h)
  have hv : Nat.ofDigitChars 10 (Nat.toDigits 10 n) 0 = n := Nat.ofDigitChars_ten_toDigits
  rw [hc] at h hv
  obtain rfl := Option.some.inj h
  exact hv.symm

private theorem IsDigits.append {a b : List Char} (ha : IsDigits a)
    (hb : ∀ c ∈ b, c.isDigit = true) :
    IsDigits (a ++ b) := by
  refine ⟨by simp [ha.1], fun c hc => ?_⟩
  rcases List.mem_append.1 hc with hc | hc
  · exact ha.2 c hc
  · exact hb c hc

private theorem isDigit_zeros {k : Nat} : ∀ c ∈ List.replicate k '0', c.isDigit = true := by
  intro c hc
  rw [List.eq_of_mem_replicate hc]
  decide

/-! ### The spellings of a double -/

private theorem length_take_of_head {n k : Nat}
    (h : ((Nat.toDigits 10 n).take (k + 1)).head? = some '0') :
    ((Nat.toDigits 10 n).take (k + 1)).length = 1 := by
  rw [List.head?_take, if_neg (by omega)] at h
  rw [eq_zero_of_head h]
  simp [Nat.toDigits_zero]

section

variable (negative : Bool) (n : Nat)

private theorem isNumber_whole {zeros : Nat} (h : n = 0 → zeros = 0) :
    IsNumber ((if negative then "-" else "").toList ++
      (Nat.toDigits 10 n ++ List.replicate zeros '0' ++ ['.', '0'])) := by
  have hds := isDigits_toDigits n
  have hlead : (Nat.toDigits 10 n ++ List.replicate zeros '0').head? = some '0' →
      (Nat.toDigits 10 n ++ List.replicate zeros '0').length = 1 := fun hhead => by
    obtain ⟨c, cs, hc⟩ := List.exists_cons_of_ne_nil hds.1
    have hn : n = 0 := eq_zero_of_head (by
      rw [hc] at hhead ⊢
      simpa using hhead)
    rw [h hn, hn]
    rfl
  have hzero : IsDigits ['0'] := ⟨by simp, by simp⟩
  simpa using isNumber_fraction (hds.append isDigit_zeros) hlead (.inl rfl) negative hzero

private theorem isNumber_pointed {k : Nat} (hk : k + 1 < (Nat.toDigits 10 n).length) :
    IsNumber ((if negative then "-" else "").toList ++
      ((Nat.toDigits 10 n).take (k + 1) ++ '.' :: (Nat.toDigits 10 n).drop (k + 1))) := by
  have hds := isDigits_toDigits n
  have hfront : IsDigits ((Nat.toDigits 10 n).take (k + 1)) :=
    ⟨by simp, fun c hc => hds.2 c (List.mem_of_mem_take hc)⟩
  have hback : IsDigits ((Nat.toDigits 10 n).drop (k + 1)) :=
    ⟨by rw [Ne, List.drop_eq_nil_iff]; omega, fun c hc => hds.2 c (List.mem_of_mem_drop hc)⟩
  simpa using isNumber_fraction hfront length_take_of_head (.inl rfl) negative hback

private theorem isNumber_small (zeros : Nat) :
    IsNumber ((if negative then "-" else "").toList ++
      ('0' :: '.' :: (List.replicate zeros '0' ++ Nat.toDigits 10 n))) := by
  have hds := isDigits_toDigits n
  have hback : IsDigits (List.replicate zeros '0' ++ Nat.toDigits 10 n) :=
    ⟨by simp, fun c hc => (List.mem_append.1 hc).elim (isDigit_zeros c) (hds.2 c)⟩
  have hzero : IsDigits ['0'] := ⟨by simp, by simp⟩
  simpa using isNumber_fraction hzero (by simp) (.inl rfl) negative hback

private theorem isExponent_signed (lead : Int) :
    IsExponent ('e' :: ((if lead < 0 then "-" else "+").toList ++ Nat.toDigits 10 lead.natAbs)) := by
  split
  · exact .inr ⟨'-', _, .inr rfl, isDigits_toDigits _, rfl⟩
  · exact .inr ⟨'+', _, .inl rfl, isDigits_toDigits _, rfl⟩

private theorem isNumber_scientific {exponent : List Char} (hexp : IsExponent exponent) :
    IsNumber ((if negative then "-" else "").toList ++ ((Nat.toDigits 10 n).take 1 ++
      ((if (Nat.toDigits 10 n).tail.isEmpty then [] else '.' :: (Nat.toDigits 10 n).tail) ++
        exponent))) := by
  have hds := isDigits_toDigits n
  have hfirst : IsDigits ((Nat.toDigits 10 n).take 1) :=
    ⟨by simp, fun c hc => hds.2 c (List.mem_of_mem_take hc)⟩
  cases htail : (Nat.toDigits 10 n).tail with
  | nil => exact isNumber_digits hfirst length_take_of_head hexp negative
  | cons d ds =>
    have hrest : IsDigits (d :: ds) :=
      ⟨by simp, fun c hc => hds.2 c (List.mem_of_mem_tail (htail ▸ hc))⟩
    exact isNumber_fraction hfirst length_take_of_head hexp negative hrest

end

/-- What is written for a double is a number by the grammar. -/
theorem isNumber_double (d : Double) : IsNumber d.text.toList := by
  rw [Double.text]
  dsimp only
  split
  · simpa using isNumber_whole d.negative 0 fun _ => rfl
  · rename_i hm
    have hunit : (Double.dropZeros 20 (Double.shortest d.magnitude).1
        (Double.shortest d.magnitude).2).1 = 0 →
          (Double.dropZeros 20 (Double.shortest d.magnitude).1
            (Double.shortest d.magnitude).2).2 ≤ 0 := fun h => by
      obtain ⟨hd, heq⟩ := Double.eq_zero_of_dropZeros h
      rw [heq]
      exact Int.not_lt.1 fun hpos => Double.shortest_ne_zero hm hpos hd
    generalize Double.dropZeros 20 (Double.shortest d.magnitude).1
      (Double.shortest d.magnitude).2 = p at hunit ⊢
    obtain ⟨n, unit⟩ := p
    dsimp only at hunit ⊢
    have htext : (toString n).toList = Nat.toDigits 10 n := by simp
    rw [Double.length_toString]
    split
    · split
      · have hzeros : n = 0 → unit.toNat = 0 := fun hn => by
          have := hunit hn
          omega
        simpa [Double.zeros, htext] using isNumber_whole d.negative n hzeros
      · split
        · rename_i hneg hlead
          have hk : (unit + (Nat.toDigits 10 n).length - 1).toNat + 1 <
              (Nat.toDigits 10 n).length := by
            omega
          simpa [htext] using isNumber_pointed d.negative n hk
        · simpa [Double.zeros, htext] using isNumber_small d.negative n _
    · have h := isNumber_scientific d.negative n
        (isExponent_signed (unit + ((Nat.toDigits 10 n).length : Int) - 1))
      cases htail : (Nat.toDigits 10 n).tail with
      | nil => simpa [htext, htail] using h
      | cons d ds => simpa [htext, htail] using h

private theorem isNumber_spelled (i : Int) : IsNumber (spelled i) := by
  have hnat (negative : Bool) (n : Nat) :=
    isNumber_digits (isDigits_toDigits n) (head?_toDigits n) (.inl rfl) negative
  rw [spelled_eq]
  split
  · simpa using hnat false i.toNat
  · simpa using hnat true (-i).toNat

/-- What is written for a number is a number by the grammar. -/
theorem isNumber_text : ∀ n : Number, IsNumber n.text.toList
  | int i => isNumber_spelled i
  | double d => isNumber_double d

end Number

end JsxToJinja
