import JsxToJinja.Proofs.Number.Spelling

/-! Numbers in a longer text: reading goes on exactly as far as it does without what follows, and
stops in front of it. -/
namespace JsxToJinja.Number

def EndsNumber (t : List Char) : Prop := ∀ c ∈ t.head?, isNumeric c = false

@[simp] theorem endsNumber_nil : EndsNumber [] := by simp [EndsNumber]

@[simp] theorem endsNumber_cons (c : Char) (t : List Char) :
    EndsNumber (c :: t) ↔ isNumeric c = false := by simp [EndsNumber]

/-! ### Reading part by part -/

def beforeExponent (plain : Option Number)
    (withExponent : List Char → Option (Option Number × List Char)) :
    List Char → Option (Option Number × List Char)
  | c :: r => if c == 'e' || c == 'E' then withExponent r else some (plain, c :: r)
  | [] => some (plain, [])

/-- The part behind the whole digits, `dropped` of which did not fit into `value`. -/
def behindDigits (negative : Bool) (value dropped : Nat) (t : List Char) :
    Option (Option Number × List Char) :=
  match t with
  | '.' :: r =>
    let fs := r.takeWhile Char.isDigit
    if fs.isEmpty then none else
      let (significand, unread) := fitting value fs
      let point : Int := (dropped : Int) - ((fs.length - unread : Nat) : Int)
      beforeExponent (decimal negative significand point 0)
        (exponentPart negative significand point) (r.dropWhile Char.isDigit)
  | t =>
    beforeExponent (if dropped = 0 then whole negative value else decimal negative value dropped 0)
      (exponentPart negative value dropped) t

def unsigned (negative : Bool) (t : List Char) : Option (Option Number × List Char) :=
  let ds := t.takeWhile Char.isDigit
  if ds.isEmpty || (ds.head? == some '0' && 1 < ds.length) then none
  else behindDigits negative (fitting 0 ds).1 (fitting 0 ds).2 (t.dropWhile Char.isDigit)

/-- A minus in front is taken for the sign. -/
theorem read?_eq_unsigned (t : List Char) : ∃ negative u, read? t = unsigned negative u ∧
    (negative = true ∧ t = '-' :: u ∨ negative = false ∧ t = u ∧ ∀ r, t ≠ '-' :: r) := by
  unfold read?
  split
  rename_i negative u hu
  refine ⟨negative, u, ?_, ?_⟩
  · rw [unsigned]
    dsimp only
    split
    · rfl
    · generalize fitting 0 (u.takeWhile Char.isDigit) = fit
      obtain ⟨value, dropped⟩ := fit
      generalize u.dropWhile Char.isDigit = v
      dsimp only
      split
      · rename_i r
        rw [behindDigits]
        dsimp only
        split
        · rfl
        · cases r.dropWhile Char.isDigit <;> rfl
      · rename_i c r hpoint
        rw [behindDigits.eq_2 _ _ _ _ fun r' h => hpoint (List.cons.inj h).1, beforeExponent]
        split
        · rfl
        · split <;> rfl
      · rw [behindDigits.eq_2 _ _ _ _ (by simp), beforeExponent]
        split <;> rfl
  · split at hu
    · cases hu
      exact .inl ⟨rfl, rfl⟩
    · rename_i hminus
      cases hu
      exact .inr ⟨rfl, rfl, hminus⟩

theorem read?_minus (t : List Char) : read? ('-' :: t) = unsigned true t := by
  obtain ⟨negative, u, hread, ⟨rfl, h⟩ | ⟨rfl, rfl, h⟩⟩ := read?_eq_unsigned ('-' :: t)
  · rwa [← (List.cons.inj h).2] at hread
  · exact absurd rfl (h t)

theorem read?_of_no_minus {t : List Char} (h : ∀ r, t ≠ '-' :: r) : read? t = unsigned false t := by
  obtain ⟨negative, u, hread, ⟨rfl, hminus⟩ | ⟨rfl, rfl, -⟩⟩ := read?_eq_unsigned t
  · exact absurd hminus (h u)
  · exact hread

/-! ### What follows a number -/

def followed (rest : List Char) (read : Option (Option Number × List Char)) :
    Option (Option Number × List Char) := read.map fun p => (p.1, p.2 ++ rest)

@[simp] theorem followed_none (rest : List Char) : followed rest none = none := rfl

@[simp] theorem followed_some (n : Option Number) (r rest : List Char) :
    followed rest (some (n, r)) = some (n, r ++ rest) := rfl

section

variable {t rest : List Char} (hrest : EndsNumber rest)
include hrest

private theorem digits_rest :
    rest.takeWhile Char.isDigit = [] ∧ rest.dropWhile Char.isDigit = rest := by
  cases rest with
  | nil => exact ⟨rfl, rfl⟩
  | cons c _ =>
    simp only [endsNumber_cons, isNumeric, Bool.or_eq_false_iff] at hrest
    simp [hrest.1]

/-- Digits at the front are those of the first part. -/
theorem digits_append : (t ++ rest).takeWhile Char.isDigit = t.takeWhile Char.isDigit ∧
    (t ++ rest).dropWhile Char.isDigit = t.dropWhile Char.isDigit ++ rest := by
  induction t with
  | nil => exact digits_rest hrest
  | cons c t ih =>
    cases hc : c.isDigit with
    | true => simpa [hc] using ih
    | false => simp [hc]

private theorem cons_of_append {c : Char} {u : List Char} (hc : isNumeric c = true)
    (h : t ++ rest = c :: u) : ∃ r, t = c :: r := by
  cases t with
  | nil =>
    rw [List.nil_append] at h
    subst h
    rw [endsNumber_cons, hc] at hrest
    cases hrest
  | cons d r => exact ⟨r, by rw [(List.cons.inj h).1]⟩

private theorem exponentPart_append (negative : Bool) (s : Nat) (point : Int) :
    exponentPart negative s point (t ++ rest) =
      followed rest (exponentPart negative s point t) := by
  have hsign : (∃ r, t = '+' :: r) ∨ (∃ r, t = '-' :: r) ∨
      ((∀ r, t ++ rest ≠ '+' :: r) ∧ ∀ r, t ++ rest ≠ '-' :: r) ∧
        (∀ r, t ≠ '+' :: r) ∧ ∀ r, t ≠ '-' :: r := by
    by_cases hplus : ∃ r, t = '+' :: r
    · exact .inl hplus
    · by_cases hminus : ∃ r, t = '-' :: r
      · exact .inr (.inl hminus)
      · exact .inr (.inr ⟨⟨fun r h => hplus (cons_of_append hrest (by decide) h),
          fun r h => hminus (cons_of_append hrest (by decide) h)⟩,
          fun r h => hplus ⟨r, h⟩, fun r h => hminus ⟨r, h⟩⟩)
  rcases hsign with ⟨r, rfl⟩ | ⟨r, rfl⟩ | ⟨⟨hplus, hminus⟩, hplus', hminus'⟩
  · rw [List.cons_append, exponentPart, exponentPart]
    simp only [digits_append hrest]
    split <;> rfl
  · rw [List.cons_append, exponentPart, exponentPart]
    simp only [digits_append hrest]
    split <;> rfl
  · rw [exponentPart.eq_3 _ _ _ _ hplus hminus, exponentPart.eq_3 _ _ _ _ hplus' hminus']
    simp only [digits_append hrest]
    split <;> rfl

private theorem beforeExponent_append {plain : Option Number}
    {withExponent : List Char → Option (Option Number × List Char)}
    (h : ∀ t, withExponent (t ++ rest) = followed rest (withExponent t)) :
    beforeExponent plain withExponent (t ++ rest) =
      followed rest (beforeExponent plain withExponent t) := by
  cases t with
  | nil =>
    cases rest with
    | nil => rfl
    | cons c r =>
      have hc : ¬ (c == 'e' || c == 'E') = true := fun he => by
        rw [endsNumber_cons, numeric_exponent he] at hrest
        cases hrest
      rw [List.nil_append, beforeExponent, if_neg hc]
      rfl
  | cons c r =>
    rw [List.cons_append, beforeExponent, beforeExponent]
    split
    · exact h r
    · rfl

private theorem behindDigits_append (negative : Bool) (value dropped : Nat) :
    behindDigits negative value dropped (t ++ rest) =
      followed rest (behindDigits negative value dropped t) := by
  have hpoint : (∃ r, t = '.' :: r) ∨ (∀ r, t ++ rest ≠ '.' :: r) ∧ ∀ r, t ≠ '.' :: r := by
    by_cases h : ∃ r, t = '.' :: r
    · exact .inl h
    · exact .inr ⟨fun r hr => h (cons_of_append hrest (by decide) hr), fun r hr => h ⟨r, hr⟩⟩
  rcases hpoint with ⟨r, rfl⟩ | ⟨hne, hne'⟩
  · rw [List.cons_append, behindDigits, behindDigits]
    simp only [digits_append hrest]
    split
    · rfl
    · exact beforeExponent_append hrest fun t => exponentPart_append hrest _ _ _
  · rw [behindDigits.eq_2 _ _ _ _ hne, behindDigits.eq_2 _ _ _ _ hne']
    exact beforeExponent_append hrest fun t => exponentPart_append hrest _ _ _

private theorem unsigned_append (negative : Bool) :
    unsigned negative (t ++ rest) = followed rest (unsigned negative t) := by
  rw [unsigned, unsigned]
  simp only [digits_append hrest]
  split
  · rfl
  · exact behindDigits_append hrest _ _ _

/-- Reading a number does not look behind its end. -/
theorem read?_append : read? (t ++ rest) = followed rest (read? t) := by
  by_cases hminus : ∃ r, t = '-' :: r
  · obtain ⟨u, rfl⟩ := hminus
    rw [List.cons_append, read?_minus, read?_minus, unsigned_append hrest]
  · rw [read?_of_no_minus fun r h => hminus ⟨r, h⟩,
      read?_of_no_minus fun r h => hminus (cons_of_append hrest (by decide) h),
      unsigned_append hrest]

end

end JsxToJinja.Number
