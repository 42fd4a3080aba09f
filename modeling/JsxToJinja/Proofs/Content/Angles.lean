import JsxToJinja.Proofs.Content.CodeContent

/-! Angle brackets outside literals. Taking the object of the properties off code and putting names behind
an item leave them as they are. -/
namespace JsxToJinja
open JsxToJinja.Text JsxToJinja.Code

namespace Code

def isAngle (c : Char) : Bool := c == '<' || c == '>'

/-- No angle bracket stands in the code outside literals, so no tag and no arrow does. -/
def isAngleFree (code : String) : Bool := (marks code.toList).all fun m => !isAngle m.char

namespace Mode

/-- Where the scan stands behind a character. -/
def next : Mode → Char → Mode
  | .escaped q, _ => .quoted q
  | .quoted q, c => if c == '\\' then .escaped q else if c == q then .code else .quoted q
  | .code, c => if isQuote c then .quoted c else .code

def Valid : Mode → Prop
  | .code => True
  | .quoted q | .escaped q => isQuote q = true

/-- A scan that stands in a proper place goes on to one. -/
theorem Valid.next {mode : Mode} (h : mode.Valid) (c : Char) : (mode.next c).Valid := by
  cases mode with
  | escaped q => exact h
  | quoted q =>
    rw [Mode.next]
    split
    · exact h
    · split
      · trivial
      · exact h
  | code =>
    rw [Mode.next]
    split
    · assumption
    · trivial

end Mode

def anglesFrom : Mode → List Char → List Char
  | _, [] => []
  | mode, c :: t =>
    (if mode = .code ∧ isAngle c = true then [c] else []) ++ anglesFrom (mode.next c) t

def angles (t : List Char) : List Char := anglesFrom .code t

theorem not_isAngle_of_isQuote {c : Char} (h : isQuote c = true) : isAngle c = false := by
  simp only [isQuote, Bool.or_eq_true, beq_iff_eq] at h
  rcases h with (rfl | rfl) | rfl <;> rfl

/-- Marks show the angle brackets of code. -/
theorem filter_marksFrom {mode : Mode} (h : mode.Valid) (d i : Nat) (t : List Char) :
    ((marksFrom mode d i t).map (·.char)).filter isAngle = anglesFrom mode t := by
  induction t generalizing mode d i with
  | nil => cases mode <;> rfl
  | cons c t ih =>
    have hnext := ih (h.next c)
    cases mode with
    | escaped q => exact hnext d (i + 1)
    | quoted q =>
      have hskip : anglesFrom (.quoted q) (c :: t) = anglesFrom ((Mode.quoted q).next c) t := by
        rw [anglesFrom, if_neg (by simp), List.nil_append]
      rw [hskip, marksFrom]
      rw [Mode.next] at hnext ⊢
      split
      · rename_i hc
        rw [if_pos hc] at hnext
        exact hnext d (i + 1)
      · rename_i hc
        rw [if_neg hc] at hnext
        split
        · rename_i hq
          rw [if_pos hq] at hnext
          have hangle : isAngle c = false := by
            rw [beq_iff_eq.1 hq]
            exact not_isAngle_of_isQuote h
          rw [List.map_cons, List.filter_cons_of_neg (by simp [hangle])]
          exact hnext d (i + 1)
        · rename_i hq
          rw [if_neg hq] at hnext
          exact hnext d (i + 1)
    | code =>
      have hcons (k d' : Nat) (mode' : Mode) (hm : mode' = Mode.code.next c) :
          ((⟨i, c, k, c :: t⟩ :: marksFrom mode' d' (i + 1) t).map (·.char)).filter isAngle =
            anglesFrom .code (c :: t) := by
        rw [List.map_cons, List.filter_cons, hm, hnext d' (i + 1), anglesFrom]
        cases isAngle c <;> simp
      rw [marksFrom]
      split
      · rename_i hq
        exact hcons _ _ _ (by rw [Mode.next, if_pos hq])
      · rename_i hq
        have hcode : Mode.code = Mode.code.next c := by rw [Mode.next, if_neg hq]
        split
        · exact hcons _ _ _ hcode
        · split <;> exact hcons _ _ _ hcode

theorem isAngleFree_iff {code : String} : isAngleFree code = true ↔ angles code.toList = [] := by
  have hvalid : Mode.code.Valid := trivial
  rw [angles, ← filter_marksFrom hvalid 0 0, List.filter_eq_nil_iff, isAngleFree, marks,
    List.all_eq_true]
  simp

/-! ### Texts put together -/

/-- Where the scan stands behind a text. -/
def Mode.after (mode : Mode) (t : List Char) : Mode := t.foldl Mode.next mode

theorem anglesFrom_append (mode : Mode) (s t : List Char) :
    anglesFrom mode (s ++ t) = anglesFrom mode s ++ anglesFrom (mode.after s) t := by
  induction s generalizing mode with
  | nil => rfl
  | cons c s ih =>
    rw [List.cons_append, anglesFrom, anglesFrom, ih, List.append_assoc]
    rfl

theorem after_literal {q : Char} {body : List Char} (hq : isQuote q = true) (hb : LiteralBody q body) :
    (Mode.quoted q).after (body ++ [q]) = .code := by
  have hslash : q ≠ '\\' := by
    rintro rfl
    exact absurd hq (by decide)
  induction hb with
  | nil => simp [Mode.after, Mode.next, hslash]
  | @plain c t hc hcq _ ih =>
    rw [List.cons_append, Mode.after, List.foldl_cons, Mode.next, if_neg (by simp [hc]),
      if_neg (by simp [hcq])]
    exact ih
  | @escape c t _ ih => exact ih

/-- Behind a properly nested text the scan stands in code again. -/
theorem Sealed.after {avoid t : List Char} (h : Sealed avoid t) : Mode.code.after t = .code := by
  have hplain {c : Char} (hc : isQuote c = false) : Mode.code.next c = .code := by
    rw [Mode.next, if_neg (by simp [hc])]
  induction h with
  | nil => rfl
  | @plain avoid c t _ ho _ ih =>
    rw [Mode.after, List.foldl_cons, hplain (isQuote_eq_false ho)]
    exact ih
  | link _ _ ih => exact ih
  | @literal avoid q body t hq hb _ ih =>
    have htext : q :: (body ++ q :: t) = q :: ((body ++ [q]) ++ t) := by simp
    rw [htext, Mode.after, List.foldl_cons, List.foldl_append, Mode.next, if_pos hq]
    have hclose : (body ++ [q]).foldl Mode.next (.quoted q) = .code := after_literal hq hb
    rw [hclose]
    exact ih
  | @group avoid o c inner t hc _ _ ihi ih =>
    have hquotes : isQuote o = false ∧ isQuote c = false := by
      obtain ⟨rfl, rfl⟩ | ⟨rfl, rfl⟩ | ⟨rfl, rfl⟩ := closingFor?_cases hc <;> decide
    have hinner : inner.foldl Mode.next .code = .code := ihi
    rw [Mode.after, List.foldl_cons, hplain hquotes.1, List.foldl_append, hinner, List.foldl_cons,
      hplain hquotes.2]
    exact ih

theorem angles_append {avoid s : List Char} (h : Sealed avoid s) (t : List Char) :
    angles (s ++ t) = angles s ++ angles t := by
  rw [angles, anglesFrom_append, h.after]
  rfl

/-- A character that is neither a quote nor an angle bracket and escapes nothing. -/
def isNeutral (c : Char) : Bool := !isQuote c && !isAngle c && c != '\\'

/-- Text without quotes, angle brackets and backslashes is passed over. -/
theorem anglesFrom_neutral {mode : Mode} (h : mode.Valid) (hm : ∀ q, mode ≠ .escaped q) {s : List Char}
    (hs : ∀ c ∈ s, isNeutral c = true) (t : List Char) :
    anglesFrom mode (s ++ t) = anglesFrom mode t := by
  induction s with
  | nil => rfl
  | cons c s ih =>
    have hc := hs c List.mem_cons_self
    simp only [isNeutral, Bool.and_eq_true, Bool.not_eq_true', bne_iff_ne, ne_eq] at hc
    have hnext : mode.next c = mode := by
      cases mode with
      | escaped q => exact absurd rfl (hm q)
      | quoted q =>
        have hq : c ≠ q := by
          rintro rfl
          have hq : isQuote c = true := h
          simp [hc.1.1] at hq
        rw [Mode.next, if_neg (by simp [hc.2]), if_neg (by simp [hq])]
      | code => rw [Mode.next, if_neg (by simp [hc.1.1])]
    rw [List.cons_append, anglesFrom, if_neg (by simp [hc.1.2]), List.nil_append, hnext,
      ih fun d hd => hs d (List.mem_cons_of_mem _ hd)]

theorem angles_neutral {s : List Char} (hs : ∀ c ∈ s, isNeutral c = true) (t : List Char) :
    angles (s ++ t) = angles t := anglesFrom_neutral (by trivial) (by simp) hs t

theorem isNeutral_of_isIdentifierChar {c : Char} (h : isIdentifierChar c = true) :
    isNeutral c = true := by
  have hne {d : Char} (hd : isIdentifierChar d = false) : c ≠ d := ne_of_isIdentifierChar h hd
  simp [isNeutral, isQuote_eq_false (isOrdinary_of_isIdentifierChar h), isAngle,
    hne (d := '<') (by decide), hne (d := '>') (by decide), hne (d := '\\') (by decide)]

theorem isNeutral_of_blank {t : List Char} (h : Blank t) : ∀ c ∈ t, isNeutral c = true := by
  intro c hc
  have hblank := h c hc
  have hne {d : Char} (hd : isBlank d = false) : c ≠ d := by
    rintro rfl
    simp [hd] at hblank
  have hquote : isQuote c = false := by
    rw [← Bool.not_eq_true]
    exact fun hq => absurd (not_blank_of_isQuote hq) (by simp [hblank])
  simp [isNeutral, hquote, isAngle, hne (d := '<') (by decide), hne (d := '>') (by decide),
    hne (d := '\\') (by decide)]

theorem isNeutral_of_isPath {t : List Char} (h : IsPath t) : ∀ c ∈ t, isNeutral c = true := by
  have hname {t : List Char} (ht : isIdentifier t = true) : ∀ c ∈ t, isNeutral c = true := fun c hc =>
    isNeutral_of_isIdentifierChar (isIdentifierChar_of_mem ht hc)
  have hdot : isNeutral '.' = true := by decide
  have hquestion : isNeutral '?' = true := by decide
  induction h with
  | name ht => exact hname ht
  | dot ht _ ih => simpa [or_imp, forall_and, hdot] using And.intro (hname ht) ih
  | link ht _ ih => simpa [or_imp, forall_and, hdot, hquestion] using And.intro (hname ht) ih

theorem angles_of_isNeutral {t : List Char} (h : ∀ c ∈ t, isNeutral c = true) : angles t = [] := by
  have := angles_neutral h []
  rwa [List.append_nil] at this

/-- Signs and blanks between two expressions add no angle bracket. -/
theorem angles_between {s t : List Char} (hs : Sealed [] s) {mid : List Char}
    (hm : ∀ c ∈ mid, isNeutral c = true) :
    angles (s ++ (mid ++ t)) = [] ↔ angles s = [] ∧ angles t = [] := by
  rw [angles_append hs, List.append_eq_nil_iff, angles_neutral hm]

/-- What stands in a literal is no code. -/
theorem angles_literal {q : Char} {body : List Char} (hq : isQuote q = true) (hb : LiteralBody q body) :
    angles (q :: (body ++ [q])) = [] := by
  have hinside : anglesFrom (.quoted q) (body ++ [q]) = [] := by
    induction hb with
    | nil => simp [anglesFrom]
    | plain hc hcq _ ih => simpa [anglesFrom, Mode.next, hc, hcq] using ih
    | escape _ ih => simpa [anglesFrom, Mode.next] using ih
  rw [angles, anglesFrom, not_isAngle_of_isQuote hq, Mode.next, if_pos hq, hinside]
  rfl

end Code

/-! ### Code that is rewritten -/

def escapedProps : List Char := '\\' :: propsHead

/-- Dropping the object of the properties drops no angle bracket and makes none code. -/
theorem anglesFrom_dropPropsFrom {n : Nat} {t : List Char} (hn : t.length ≤ n) {mode : Mode}
    (h : mode.Valid) (hm : ∀ q, mode = .escaped q → ¬ propsHead <+: t) (ht : ¬ escapedProps <:+: t)
    (before : Option Char) : anglesFrom mode (dropPropsFrom 0 before t) = anglesFrom mode t := by
  induction n generalizing t mode before with
  | zero => rw [List.length_eq_zero_iff.1 (Nat.le_zero.1 hn), dropPropsFrom]
  | succ n ih =>
    cases t with
    | nil => rw [dropPropsFrom]
    | cons c t =>
      rw [dropPropsFrom]
      split
      · rename_i hc
        simp only [Bool.and_eq_true, startsWith, List.isPrefixOf_iff_prefix] at hc
        obtain ⟨r, hr⟩ := hc.2
        have hcode : ∀ q, mode ≠ .escaped q := fun q hq => hm q hq hc.2
        have hskip : dropPropsFrom (propsHead.length - 1) (some c) t = dropPropsFrom 0 (some '.') r := by
          obtain ⟨-, rfl⟩ := List.cons.inj hr
          rfl
        have hlen : r.length ≤ n := by
          have := congrArg List.length hr
          have hhead : propsHead.length = 6 := rfl
          simp only [List.length_append, List.length_cons] at this hn
          omega
        rw [hskip, ih hlen h (fun q hq => absurd hq (hcode q))
          (fun hi => ht (hr ▸ hi.trans (List.suffix_append _ _).isInfix)), ← hr,
          anglesFrom_neutral h hcode (by decide)]
      · have hlen : t.length ≤ n := by
          rw [List.length_cons] at hn
          omega
        have hnext : ∀ q, mode.next c = .escaped q → ¬ propsHead <+: t := by
          intro q hq hp
          refine ht ?_
          have hslash : c = '\\' := by
            cases mode with
            | escaped q' => cases hq
            | quoted q' =>
              rw [Mode.next] at hq
              split at hq
              · rename_i hc
                simpa using hc
              · split at hq <;> cases hq
            | code =>
              rw [Mode.next] at hq
              split at hq <;> cases hq
          rw [hslash, escapedProps]
          exact ((List.prefix_cons_inj _).2 hp).isInfix
        rw [anglesFrom, anglesFrom, ih hlen (h.next c) hnext
          fun hi => ht (hi.trans (List.suffix_cons c t).isInfix)]

theorem angles_stripProps {t : List Char} (h : ¬ escapedProps <:+: t) :
    angles (stripProps t) = angles t :=
  anglesFrom_dropPropsFrom (Nat.le_refl _) (by trivial) (by simp) h none

namespace Qualified

variable {names : List String} {item : List Char}

/-- Inside a literal a character is kept. -/
theorem qualifyTail_inside {mode : Mode} (h : mode.Valid) (hm : mode ≠ .code) {pre rest : List Char}
    (c : Char) : qualifyTail names item pre mode (c :: rest) =
      c :: qualifyTail names item (pre ++ [c]) (mode.next c) rest := by
  cases mode with
  | code => exact absurd rfl hm
  | escaped q => rw [qualifyTail, marksFrom, Mode.next]; exact qualifyFrom_past
  | quoted q =>
    rw [qualifyTail, marksFrom, Mode.next]
    split
    · exact qualifyFrom_past
    · split
      · rename_i hq
        -- The quote at the end is a mark, but starts no name.
        have hquote : isQuote c = true := beq_iff_eq.1 hq ▸ h
        have hstart : isIdentifierStart c = false := by
          rw [← Bool.not_eq_true]
          intro hs
          have := isQuote_eq_false (isOrdinary_of_isIdentifierChar (isIdentifierChar_of_start hs))
          simp [this] at hquote
        rw [qualifyFrom_cons, standsAt, hstart, Bool.false_and, Bool.false_and, Bool.not_false,
          Bool.or_true, if_pos rfl]
        exact qualifyFrom_past
      · exact qualifyFrom_past

theorem qualifyTail_nil (pre : List Char) (mode : Mode) : qualifyTail names item pre mode [] = [] := by
  rw [qualifyTail]
  cases mode <;> simp [marksFrom, qualifyFrom]

theorem isNeutral_qualifiedName {x : List Char} (hitem : ∀ c ∈ item, isNeutral c = true)
    (hx : ∀ c ∈ x, isNeutral c = true) : ∀ c ∈ qualifiedName names item x, isNeutral c = true := by
  have hdot : isNeutral '.' = true := by decide
  intro c hc
  rw [qualifiedName] at hc
  split at hc
  · simp only [List.mem_append, List.mem_cons] at hc
    rcases hc with hc | rfl | hc
    · exact hitem c hc
    · exact hdot
    · exact hx c hc
  · exact hx c hc

/-- Putting names behind an item adds no angle bracket and makes none code. -/
theorem anglesFrom_qualifyTail (hitem : ∀ c ∈ item, isNeutral c = true) {n : Nat} {pre rest : List Char}
    (hn : rest.length ≤ n) {mode : Mode} (h : mode.Valid) :
    anglesFrom mode (qualifyTail names item pre mode rest) = anglesFrom mode rest := by
  induction n generalizing pre rest mode with
  | zero => rw [List.length_eq_zero_iff.1 (Nat.le_zero.1 hn), qualifyTail_nil]
  | succ n ih =>
    cases rest with
    | nil => rw [qualifyTail_nil]
    | cons c rest =>
      have hkept (hk : qualifyTail names item pre mode (c :: rest) =
          c :: qualifyTail names item (pre ++ [c]) (mode.next c) rest) :
          anglesFrom mode (qualifyTail names item pre mode (c :: rest)) = anglesFrom mode (c :: rest) := by
        rw [hk, anglesFrom, anglesFrom, ih (Nat.le_of_succ_le_succ hn) (h.next c)]
      by_cases hm : mode = .code
      · subst hm
        by_cases hname : isIdentifierStart c = true ∧ Apart pre
        · -- A name that stands free, with what comes behind it.
          obtain ⟨hstart, hpre⟩ := hname
          have hchar := isIdentifierChar_of_start hstart
          let x := c :: rest.takeWhile isIdentifierChar
          let r := rest.dropWhile isIdentifierChar
          have hsplit : c :: rest = x ++ r := by simp [x, r, List.takeWhile_append_dropWhile]
          have hall : ∀ d ∈ rest.takeWhile isIdentifierChar, isIdentifierChar d = true :=
            fun d hd => List.all_eq_true.1 List.all_takeWhile d hd
          have hx : isIdentifier x = true := by
            simp only [x, isIdentifier, hstart, Bool.true_and]
            exact List.all_eq_true.2 hall
          have hends : Ends r := fun d hd => by
            have := List.head?_dropWhile_not isIdentifierChar rest
            simp only [r, Option.mem_def] at hd
            simpa [hd] using this
          have hneutral : ∀ d ∈ x, isNeutral d = true := fun d hd =>
            isNeutral_of_isIdentifierChar (isIdentifierChar_of_mem hx hd)
          have hlen : r.length ≤ n :=
            Nat.le_trans (List.dropWhile_suffix _).length_le (Nat.le_of_succ_le_succ hn)
          rw [hsplit, qualifyTail_name hx hpre hends,
            anglesFrom_neutral h (by simp) (isNeutral_qualifiedName hitem hneutral),
            anglesFrom_neutral h (by simp) hneutral, ih hlen h]
        · refine hkept (qualifyTail_kept fun hs => ?_)
          rw [← Bool.not_eq_false]
          exact fun hp => hname ⟨hs, hp⟩
      · exact hkept (qualifyTail_inside h hm c)

theorem angles_qualify {item : String} (hitem : ∀ c ∈ item.toList, isNeutral c = true) (c : String) :
    angles (qualify names item c).toList = angles c.toList := by
  have hc := qualify_ofList names item c.toList
  rw [String.ofList_toList] at hc
  rw [hc, String.toList_ofList]
  exact anglesFrom_qualifyTail hitem (Nat.le_refl _) (by trivial)

end Qualified

end JsxToJinja
