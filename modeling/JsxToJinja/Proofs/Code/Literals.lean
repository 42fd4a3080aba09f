import JsxToJinja.Code.Literal
import JsxToJinja.Proofs.Code.Sealed
import JsxToJinja.Proofs.Number.Spelling

/-! Literals as whole texts: what is one, what is none, and the values they stand for. -/
namespace JsxToJinja.Code
open JsxToJinja.Text

private theorem closeFrom_body {q : Char} {body : List Char} (hq : isQuote q = true)
    (hb : LiteralBody q body) (i : Nat) (rest : List Char) :
    closeFrom q false i (body ++ q :: rest) = some (i + body.length) := by
  have hslash : q ≠ '\\' := by
    rintro rfl
    exact absurd hq (by decide)
  induction hb generalizing i with
  | nil => simp [closeFrom, hslash]
  | @plain c t hc hcq _ ih =>
    have hl : i + (c :: t).length = i + 1 + t.length := by simp; omega
    rw [List.cons_append, closeFrom, if_neg (by simp [hc]), if_neg (by simp [hcq]), ih, hl]
  | @escape c t _ ih =>
    have hl : i + ('\\' :: c :: t).length = i + 1 + 1 + t.length := by simp; omega
    rw [List.cons_append, List.cons_append, closeFrom, if_pos (by simp), closeFrom, ih, hl]

theorem literalClose?_body {q : Char} {body : List Char} (hq : isQuote q = true)
    (hb : LiteralBody q body) (rest : List Char) :
    literalClose? (q :: (body ++ q :: rest)) = some (1 + body.length) := by
  rw [literalClose?, if_pos hq, closeFrom_body hq hb]

theorem not_blank_of_isQuote {q : Char} (h : isQuote q = true) : isBlank q = false := by
  simp only [isQuote, Bool.or_eq_true, beq_iff_eq] at h
  rcases h with (rfl | rfl) | rfl <;> decide

theorem trimmed_literal {q : Char} (hq : isQuote q = true) (body : List Char) :
    Trimmed (q :: (body ++ [q])) :=
  trimmed_cons_concat (not_blank_of_isQuote hq) (not_blank_of_isQuote hq) body

theorem singleLiteral?_literal {q : Char} {body : List Char} (hq : isQuote q = true)
    (hb : LiteralBody q body) : singleLiteral? (q :: (body ++ [q])) = some q := by
  have hlen : (q :: (body ++ [q])).length - 1 = 1 + body.length := by simp; omega
  have htwo : 2 ≤ (q :: (body ++ [q])).length := by simp
  simp only [singleLiteral?, (trimmed_literal hq body).trim_eq, literalClose?_body hq hb [], hlen,
    htwo, decide_true, beq_self_eq_true, Bool.and_self, if_true]
  rfl

/-- A text that starts with no quote is no literal. -/
theorem singleLiteral?_of_head {t : List Char} (h : ∀ c ∈ (trim t).head?, isQuote c = false) :
    singleLiteral? t = none := by
  have hclose : literalClose? (trim t) = none := by
    cases ht : trim t with
    | nil => rfl
    | cons c u => simp [literalClose?, h c (by simp [ht])]
  simp [singleLiteral?, hclose]

/-- A literal with something behind it is no literal as a whole. -/
theorem singleLiteral?_append {q : Char} {body rest : List Char} (hq : isQuote q = true)
    (hb : LiteralBody q body) (hne : rest ≠ []) (ht : Trimmed (q :: (body ++ q :: rest))) :
    singleLiteral? (q :: (body ++ q :: rest)) = none := by
  have hpos : 0 < rest.length := List.length_pos_iff.2 hne
  have hlen : ¬ 1 + body.length = (q :: (body ++ q :: rest)).length - 1 := by
    simp only [List.length_cons, List.length_append]
    omega
  simp only [singleLiteral?, ht.trim_eq, literalClose?_body hq hb]
  rw [if_neg]
  simp only [Bool.and_eq_true, decide_eq_true_eq, beq_iff_eq, Option.some.injEq]
  exact fun h => hlen h.2

theorem stringLiteral?_eq_none {t : List Char} (ht : Trimmed t) (h : singleLiteral? t = none) :
    stringLiteral? t = none := by
  simp [stringLiteral?, ht.trim_eq, h]

theorem stringLiteral?_of_head {t : List Char} (h : ∀ c ∈ (trim t).head?, isQuote c = false) :
    stringLiteral? t = none := by
  have hs : singleLiteral? (trim t) = none :=
    singleLiteral?_of_head (by rwa [(trimmed_trim t).trim_eq])
  simp [stringLiteral?, hs]

theorem isTemplateLiteral_of_head {t : List Char} (h : ∀ c ∈ (trim t).head?, isQuote c = false) :
    isTemplateLiteral t = false := by
  simp [isTemplateLiteral, singleLiteral?_of_head h]

theorem stringLiteral?_literal {q : Char} {body : List Char} (hq : isQuote q = true)
    (htick : q ≠ '\x60') (hb : LiteralBody q body) :
    stringLiteral? (q :: (body ++ [q])) = some (unescape body) := by
  have hinner : groupInner (q :: (body ++ [q])) = body := by simp [groupInner]
  simp [stringLiteral?, (trimmed_literal hq body).trim_eq, singleLiteral?_literal hq hb, hinner, htick]

theorem LiteralBody.append {q : Char} {a b : List Char} (ha : LiteralBody q a)
    (hb : LiteralBody q b) : LiteralBody q (a ++ b) := by
  induction ha with
  | nil => exact hb
  | plain hs hq _ ih => exact .plain hs hq ih
  | escape _ ih => exact .escape ih

theorem literalBody_of_plain {q : Char} {body : List Char} (hs : '\\' ∉ body) (hq : q ∉ body) :
    LiteralBody q body := by
  induction body with
  | nil => exact .nil
  | cons c t ih =>
    simp only [List.mem_cons, not_or] at hs hq
    exact .plain (Ne.symm hs.1) (Ne.symm hq.1) (ih hs.2 hq.2)

/-! ### The shape of a literal -/

private theorem closeFrom_some {q : Char} {i n : Nat} {t : List Char}
    (h : closeFrom q false i t = some n) :
    ∃ body rest, t = body ++ q :: rest ∧ LiteralBody q body ∧ n = i + body.length := by
  induction hlen : t.length using Nat.strongRecOn generalizing t i with
  | ind m ih =>
    subst hlen
    cases t with
    | nil => simp [closeFrom] at h
    | cons c t =>
      rw [closeFrom] at h
      split at h
      · -- a backslash takes the next character with it
        rename_i hc
        have hslash : c = '\\' := by simpa using hc
        subst hslash
        cases t with
        | nil => simp [closeFrom] at h
        | cons d t =>
          rw [closeFrom] at h
          obtain ⟨body, rest, rfl, hb, rfl⟩ :=
            ih t.length (by simp only [List.length_cons]; omega) h rfl
          exact ⟨'\\' :: d :: body, rest, rfl, .escape hb, by simp; omega⟩
      · rename_i hc
        split at h
        · rename_i hq
          have hq' : c = q := by simpa using hq
          subst hq'
          exact ⟨[], t, rfl, .nil, by simpa using h.symm⟩
        · rename_i hq
          obtain ⟨body, rest, rfl, hb, rfl⟩ := ih t.length (by simp) h rfl
          exact ⟨c :: body, rest, rfl, .plain (by simpa using hc) (by simpa using hq) hb, by simp; omega⟩

/-- A text with a value is a quote, a body and the quote again. -/
theorem literal_of_stringLiteral? {t v : List Char} (h : stringLiteral? t = some v) :
    ∃ q body, isQuote q = true ∧ LiteralBody q body ∧ trim t = q :: (body ++ [q]) := by
  have htrim := (trimmed_trim t).trim_eq
  have hsome : (singleLiteral? (trim t)).isSome = true := by
    cases hs : singleLiteral? (trim t) with
    | none => simp [stringLiteral?, hs] at h
    | some q => rfl
  simp only [singleLiteral?, htrim] at hsome
  split at hsome
  · rename_i hc
    simp only [Bool.and_eq_true, decide_eq_true_eq, beq_iff_eq] at hc
    cases ht : trim t with
    | nil => simp [ht] at hc
    | cons q u =>
      rw [ht, literalClose?] at hc
      obtain ⟨-, hc⟩ := hc
      split at hc
      · rename_i hq
        obtain ⟨body, rest, rfl, hb, hn⟩ := closeFrom_some hc
        have hrest : rest = [] := by
          have : rest.length = 0 := by
            simp only [List.length_cons, List.length_append] at hn
            omega
          exact List.length_eq_zero_iff.1 this
        subst hrest
        exact ⟨q, body, hq, hb, rfl⟩
      · cases hc
  · cases hsome

end JsxToJinja.Code
