import JsxToJinja.Content.Rewrite
import JsxToJinja.Proofs.Code.Names

/-! Qualifying names in a text, piece by piece: a name that stands free is put behind the item, signs,
blanks and members stay, and a literal stays whatever it holds. -/
namespace JsxToJinja.Qualified
open JsxToJinja.Text JsxToJinja.Code

/-! ### The rest of a text -/

section
variable {names : List String} {item : List Char}

/-- What is written of a text from a place on. -/
def qualifyTail (names : List String) (item pre : List Char) (mode : Mode) (rest : List Char) :
    List Char :=
  qualifyFrom names item (pre ++ rest) pre.length (marksFrom mode 0 pre.length rest)

theorem qualify_ofList (names : List String) (item : String) (t : List Char) :
    qualify names item (String.ofList t) =
      String.ofList (qualifyTail names item.toList [] .code t) := by
  rw [qualify, String.toList_ofList]
  rfl

/-- Depths play no part. -/
theorem qualifyFrom_marksFrom (t : List Char) (last : Nat) (mode : Mode) (d i : Nat)
    (rest : List Char) : qualifyFrom names item t last (marksFrom mode d i rest) =
      qualifyFrom names item t last (marksFrom mode 0 i rest) := by
  have hall (d' : Nat) : qualifyFrom names item t last (marksFrom mode d i rest) =
      qualifyFrom names item t last (marksFrom mode d' i rest) := by
    induction rest generalizing last mode d i d' with
    | nil => cases mode <;> rfl
    | cons c rest ih =>
      have hmark {k k' n n' : Nat} {mode' : Mode} :
          qualifyFrom names item t last
              (⟨i, c, k, c :: rest⟩ :: marksFrom mode' n (i + 1) rest) =
            qualifyFrom names item t last
              (⟨i, c, k', c :: rest⟩ :: marksFrom mode' n' (i + 1) rest) := by
        rw [qualifyFrom, qualifyFrom]
        dsimp only
        rw [ih last mode' n (i + 1) n', ih _ mode' n (i + 1) n']
      cases mode with
      | escaped q => exact ih last (.quoted q) d (i + 1) d'
      | quoted q =>
        rw [marksFrom, marksFrom]
        split
        · exact ih last (.escaped q) d (i + 1) d'
        · split
          · exact hmark
          · exact ih last (.quoted q) d (i + 1) d'
      | code =>
        rw [marksFrom, marksFrom]
        split
        · exact hmark
        · split
          · exact hmark
          · split <;> exact hmark
  exact hall 0

theorem drop_eq_slice_append {t : List Char} {last k : Nat} (h : last ≤ k) :
    t.drop last = slice t last k ++ t.drop k := by
  have hsplit : t.drop last = (t.take k ++ t.drop k).drop last := by rw [List.take_append_drop]
  rw [hsplit, List.drop_append, slice, List.length_take]
  rcases Nat.le_total k t.length with hk | hk
  · rw [Nat.min_eq_left hk, Nat.sub_eq_zero_of_le h, List.drop_zero]
  · rw [List.drop_eq_nil_of_le hk, List.drop_nil]

theorem slice_append_slice {t : List Char} {last k n : Nat} (h : last ≤ k) (hn : k ≤ n) :
    slice t last n = slice t last k ++ slice t k n := by
  have := drop_eq_slice_append (t := t.take n) h
  rwa [slice, List.take_take, Nat.min_eq_left hn] at this

def wordAt (m : Mark) : List Char := m.rest.takeWhile isIdentifierChar

def standsAt (names : List String) (t : List Char) (m : Mark) : Bool :=
  isIdentifierStart m.char && !(if m.index = 0 then none else t[m.index - 1]?).any joinsWord &&
    names.contains (String.ofList (wordAt m))

/-- One mark of the rewriting: a name that stands free gets the item in front, all else is
copied. -/
theorem qualifyFrom_cons (t : List Char) (last : Nat) (m : Mark) (ms : List Mark) :
    qualifyFrom names item t last (m :: ms) =
      if m.index < last || !standsAt names t m then qualifyFrom names item t last ms
      else slice t last m.index ++ item ++ '.' :: wordAt m ++
        qualifyFrom names item t (m.index + (wordAt m).length) ms := by
  rw [qualifyFrom, standsAt]
  dsimp only
  generalize (if m.index = 0 then none else t[m.index - 1]?).any joinsWord = joined
  rw [← wordAt]
  cases isIdentifierStart m.char <;> cases joined <;>
    cases names.contains (String.ofList (wordAt m)) <;> simp

/-- What is not written yet is written as it is up to the next mark. -/
theorem qualifyFrom_flush {t : List Char} {ms : List Mark} {last k : Nat} (hl : last ≤ k)
    (hm : ∀ m ∈ ms, k ≤ m.index) :
    qualifyFrom names item t last ms = slice t last k ++ qualifyFrom names item t k ms := by
  induction ms with
  | nil => exact drop_eq_slice_append hl
  | cons m ms ih =>
    have hk := hm m (by simp)
    have hlast : ¬ m.index < last := by omega
    have hnext : ¬ m.index < k := by omega
    rw [qualifyFrom_cons, qualifyFrom_cons, decide_eq_false hlast, decide_eq_false hnext,
      Bool.false_or, ih fun m' hm' => hm m' (by simp [hm']), slice_append_slice hl hk]
    split
    · rfl
    · simp only [List.append_assoc]

/-- Marks in what is written already are passed over. -/
theorem qualifyFrom_skip {t : List Char} {ms later : List Mark} {last : Nat}
    (hm : ∀ m ∈ ms, m.index < last) :
    qualifyFrom names item t last (ms ++ later) = qualifyFrom names item t last later := by
  induction ms with
  | nil => rfl
  | cons m ms ih =>
    rw [List.cons_append, qualifyFrom_cons, decide_eq_true (hm m (by simp)), Bool.true_or, if_pos rfl]
    exact ih fun m' hm' => hm m' (by simp [hm'])

/-! ### One step -/

variable {pre rest : List Char}

theorem getElem?_before (pre : List Char) (c : Char) (rest : List Char) :
    (if pre.length = 0 then none else (pre ++ c :: rest)[pre.length - 1]?) = pre.getLast? := by
  rcases List.eq_nil_or_concat pre with rfl | ⟨pre, b, rfl⟩
  · rfl
  · simp

/-- The text from a mark on, once the character at the mark is written. -/
theorem qualifyFrom_past {c : Char} {mode : Mode} {d : Nat} :
    qualifyFrom names item (pre ++ c :: rest) pre.length (marksFrom mode d (pre.length + 1) rest) =
      c :: qualifyTail names item (pre ++ [c]) mode rest := by
  have hsplit : pre ++ c :: rest = (pre ++ [c]) ++ rest := by simp
  have hslice : slice (pre ++ c :: rest) pre.length (pre.length + 1) = [c] := by
    have := slice_append_left pre [c] rest
    rwa [List.singleton_append] at this
  rw [qualifyFrom_marksFrom, qualifyFrom_flush (Nat.le_succ _) fun m hm =>
    (rest_of_mem_marksFrom hm).1, hslice, List.singleton_append, qualifyTail, ← hsplit]
  simp

/-- No name of the list stands free here. -/
theorem qualifyTail_passed {c : Char}
    (h : ∀ d, standsAt names (pre ++ c :: rest) ⟨pre.length, c, d, c :: rest⟩ = false) :
    qualifyTail names item pre .code (c :: rest) =
      c :: qualifyTail names item (pre ++ [c]) (if isQuote c then .quoted c else .code) rest := by
  obtain ⟨d, k, hmarks⟩ : ∃ d k, marksFrom .code 0 pre.length (c :: rest) =
      ⟨pre.length, c, k, c :: rest⟩ ::
        marksFrom (if isQuote c then .quoted c else .code) d (pre.length + 1) rest := by
    rw [marksFrom]
    split
    · exact ⟨_, _, rfl⟩
    · split
      · exact ⟨_, _, rfl⟩
      · split <;> exact ⟨_, _, rfl⟩
  rw [qualifyTail, hmarks, qualifyFrom_cons, h, Bool.not_false, Bool.or_true, if_pos rfl,
    qualifyFrom_past]

/-- A character that begins no free name is copied. -/
theorem qualifyTail_kept {c : Char}
    (hc : isIdentifierStart c = true → pre.getLast?.any joinsWord = true) :
    qualifyTail names item pre .code (c :: rest) =
      c :: qualifyTail names item (pre ++ [c]) (if isQuote c then .quoted c else .code) rest := by
  refine qualifyTail_passed fun d => ?_
  rw [standsAt, getElem?_before]
  cases hs : isIdentifierStart c with
  | false => rfl
  | true => rw [hc hs]; rfl

/-- A literal stays whatever it holds. -/
theorem qualifyTail_literal {q : Char} {body : List Char} (hq : isQuote q = true)
    (hb : LiteralBody q body) : qualifyTail names item pre .code (q :: (body ++ q :: rest)) =
      q :: (body ++ q :: qualifyTail names item (pre ++ (q :: (body ++ [q]))) .code rest) := by
  have hstart : isIdentifierStart q = false := by
    simp only [isQuote, Bool.or_eq_true, beq_iff_eq] at hq
    rcases hq with (rfl | rfl) | rfl <;> decide
  have hstands (t : List Char) (i d : Nat) (r : List Char) :
      standsAt names t ⟨i, q, d, r⟩ = false := by
    rw [standsAt, hstart]
    rfl
  have htext : (pre ++ [q]) ++ (body ++ q :: rest) = (pre ++ q :: body) ++ q :: rest := by simp
  have hlen : (pre ++ [q]).length + body.length = (pre ++ q :: body).length := by simp; omega
  have hslice : slice ((pre ++ q :: body) ++ q :: rest) (pre ++ [q]).length
      (pre ++ q :: body).length = body := by
    have := slice_append_left (pre ++ [q]) body (q :: rest)
    rwa [htext, hlen] at this
  have hinside : qualifyTail names item (pre ++ [q]) (.quoted q) (body ++ q :: rest) =
      body ++ q :: qualifyTail names item ((pre ++ q :: body) ++ [q]) .code rest := by
    rw [qualifyTail, marksFrom_literal hq hb, qualifyFrom_cons, hstands, Bool.not_false, Bool.or_true,
      if_pos rfl, htext, hlen]
    have hpast : ∀ m ∈ marksFrom .code 0 ((pre ++ q :: body).length + 1) rest,
        (pre ++ q :: body).length ≤ m.index := fun m hm =>
      Nat.le_of_succ_le (rest_of_mem_marksFrom hm).1
    have hle : (pre ++ [q]).length ≤ (pre ++ q :: body).length := by simp
    rw [qualifyFrom_flush hle hpast, hslice, qualifyFrom_past]
  rw [qualifyTail_kept (by simp [hstart]), if_pos hq, hinside]
  simp

/-- What goes on a name or a member stays. -/
theorem qualifyTail_joined {w : List Char} (hp : pre.getLast?.any joinsWord = true)
    (hw : ∀ c ∈ w, joinsWord c = true) :
    qualifyTail names item pre .code (w ++ rest) =
      w ++ qualifyTail names item (pre ++ w) .code rest := by
  induction w generalizing pre with
  | nil => simp
  | cons c w ih =>
    have hc : joinsWord c = true := hw c (by simp)
    have hquote : isQuote c = false := by
      rw [← Bool.not_eq_true]
      intro hq
      simp only [isQuote, Bool.or_eq_true, beq_iff_eq] at hq
      rcases hq with (rfl | rfl) | rfl <;> exact absurd hc (by decide)
    rw [List.cons_append, qualifyTail_kept fun _ => hp, if_neg (by simp [hquote]),
      ih (by simpa using hc) fun d hd => hw d (by simp [hd])]
    simp

def IsPlain (w : List Char) : Prop := ∀ c ∈ w, isQuote c = false ∧ isIdentifierChar c = false

theorem IsPlain.append {v w : List Char} (hv : IsPlain v) (hw : IsPlain w) : IsPlain (v ++ w) :=
  fun c hc => (List.mem_append.1 hc).elim (hv c) (hw c)

theorem qualifyTail_plain {w : List Char} (hw : IsPlain w) :
    qualifyTail names item pre .code (w ++ rest) =
      w ++ qualifyTail names item (pre ++ w) .code rest := by
  induction w generalizing pre with
  | nil => simp
  | cons c w ih =>
    obtain ⟨hquote, hname⟩ := hw c (by simp)
    have hstart : isIdentifierStart c ≠ true := fun h =>
      absurd (isIdentifierChar_of_start h) (by simp [hname])
    rw [List.cons_append, qualifyTail_kept fun h => absurd h hstart, if_neg (by simp [hquote]),
      ih fun d hd => hw d (by simp [hd])]
    simp

/-- What stands in front of a place where a name may stand free. -/
def Apart (pre : List Char) : Prop := pre.getLast?.any joinsWord = false

/-- No name goes on here. -/
def Ends (rest : List Char) : Prop := ∀ c ∈ rest.head?, isIdentifierChar c = false

def qualifiedName (names : List String) (item x : List Char) : List Char :=
  if names.contains (String.ofList x) then item ++ '.' :: x else x

theorem takeWhile_name {x : List Char} (hx : isIdentifier x = true) (hr : Ends rest) :
    (x ++ rest).takeWhile isIdentifierChar = x := by
  rw [List.takeWhile_append_of_pos fun c hc => isIdentifierChar_of_mem hx hc]
  cases rest with
  | nil => simp
  | cons c rest => simp [hr c rfl]

/-- A name where one may stand free turns into a field, if it is listed. -/
theorem qualifyTail_name {x : List Char} (hx : isIdentifier x = true) (hp : Apart pre)
    (hr : Ends rest) : qualifyTail names item pre .code (x ++ rest) =
      qualifiedName names item x ++ qualifyTail names item (pre ++ x) .code rest := by
  cases x with
  | nil => cases hx
  | cons c x =>
    have hstart : isIdentifierStart c = true := by
      simp only [isIdentifier, Bool.and_eq_true] at hx
      exact hx.1
    have hchar : isIdentifierChar c = true := isIdentifierChar_of_start hstart
    have hword (d : Nat) : wordAt ⟨pre.length, c, d, c :: (x ++ rest)⟩ = c :: x :=
      takeWhile_name hx hr
    have hstands (d : Nat) : standsAt names (pre ++ c :: (x ++ rest))
        ⟨pre.length, c, d, c :: (x ++ rest)⟩ = names.contains (String.ofList (c :: x)) := by
      rw [standsAt, hword, getElem?_before, hstart, hp]
      rfl
    rw [qualifiedName, List.cons_append]
    split
    · rename_i hin
      let t := pre ++ c :: (x ++ rest)
      let mark : Mark := ⟨pre.length, c, 0, c :: (x ++ rest)⟩
      let last := pre.length + (c :: x).length
      have hsealed : Sealed [] (c :: x) :=
        sealed_of_nameChars (fun d hd => isIdentifierChar_of_mem hx hd) (by simp)
      obtain ⟨ms, hms, hinside⟩ := hsealed.marksFrom_append 0 pre.length rest
      have hmarks : marksFrom .code 0 pre.length (c :: (x ++ rest)) =
          mark :: marksFrom .code 0 (pre.length + 1) (x ++ rest) :=
        marksFrom_ordinary (isOrdinary_of_isIdentifierChar hchar) _ _ _
      have hskip : qualifyFrom names item t last (marksFrom .code 0 (pre.length + 1) (x ++ rest)) =
          qualifyFrom names item t last (marksFrom .code 0 last rest) := by
        have hwritten : ∀ m ∈ [mark], m.index < last := by simp [mark, last]
        have hpassed : ∀ m ∈ ms, m.index < last := fun m hm => (hinside m hm).upper
        rw [← qualifyFrom_skip hwritten, List.singleton_append, ← hmarks, ← List.cons_append, hms,
          qualifyFrom_skip hpassed]
      have hslice : slice t pre.length pre.length = [] := by simp [slice]
      rw [qualifyTail, hmarks, qualifyFrom_cons, hstands, hin]
      simp only [mark, Nat.lt_irrefl, decide_false, Bool.not_true, Bool.or_self, Bool.false_eq_true,
        if_false, hword]
      have htail : qualifyFrom names item t last (marksFrom .code 0 last rest) =
          qualifyTail names item (pre ++ c :: x) .code rest := by
        simp [qualifyTail, t, last]
      rw [hskip, hslice, htail]
      simp
    · rename_i hout
      have hquote : isQuote c = false := isQuote_eq_false (isOrdinary_of_isIdentifierChar hchar)
      have hjoins : ∀ d ∈ x, joinsWord d = true := fun d hd => by
        rw [joinsWord, isIdentifierChar_of_mem hx (by simp [hd]), Bool.or_true]
      rw [qualifyTail_passed fun d => (hstands d).trans (Bool.eq_false_iff.2 hout),
        if_neg (by simp [hquote]), qualifyTail_joined (by simp [joinsWord, hchar]) hjoins]
      simp

/-! ### Pieces -/

/-- Where a name may stand free, the first text is turned into the second, up to what does not go on a
name. -/
def Turns (names : List String) (item w w' : List Char) : Prop :=
  ∀ pre rest, Apart pre → Ends rest →
    qualifyTail names item pre .code (w ++ rest) =
      w' ++ qualifyTail names item (pre ++ w) .code rest

/-- Signs and blanks behind which a name may stand free. -/
def IsSpace (w : List Char) : Prop := ∀ c ∈ w, isQuote c = false ∧ joinsWord c = false

theorem IsSpace.append {v w : List Char} (hv : IsSpace v) (hw : IsSpace w) : IsSpace (v ++ w) :=
  fun c hc => (List.mem_append.1 hc).elim (hv c) (hw c)

theorem IsSpace.plain {w : List Char} (h : IsSpace w) : IsPlain w := fun c hc => by
  obtain ⟨hquote, hjoins⟩ := h c hc
  rw [joinsWord, Bool.or_eq_false_iff] at hjoins
  exact ⟨hquote, hjoins.2⟩

theorem IsSpace.apart {w : List Char} (h : IsSpace w) (hp : w = [] → Apart pre) :
    Apart (pre ++ w) := by
  rcases List.eq_nil_or_concat w with rfl | ⟨w, c, rfl⟩
  · rw [List.append_nil]
    exact hp rfl
  · simpa [Apart] using (h c (by simp)).2

theorem IsPlain.ends {w : List Char} (h : IsPlain w) (hr : w = [] → Ends rest) :
    Ends (w ++ rest) := by
  cases w with
  | nil => exact hr rfl
  | cons c w => simpa [Ends] using (h c (by simp)).2

namespace Turns

variable {u v w w' x x' : List Char}

theorem of_plain (h : IsPlain w) : Turns names item w w := fun _ _ _ _ => qualifyTail_plain h

theorem after (hu : IsSpace u) (hw : Turns names item w w') :
    Turns names item (u ++ w) (u ++ w') := by
  intro pre rest hp hr
  rw [List.append_assoc, qualifyTail_plain hu.plain, hw (pre ++ u) rest (hu.apart fun _ => hp) hr]
  simp

theorem before (hw : Turns names item w w') (hv : IsPlain v) :
    Turns names item (w ++ v) (w' ++ v) := by
  intro pre rest hp hr
  rw [List.append_assoc, hw pre (v ++ rest) hp (hv.ends fun _ => hr), qualifyTail_plain hv]
  simp

/-- Two texts with something between them. -/
theorem between (hw : Turns names item w w') (hv : IsSpace v) (hne : v ≠ [])
    (hx : Turns names item x x') : Turns names item (w ++ (v ++ x)) (w' ++ (v ++ x')) := by
  intro pre rest hp hr
  rw [List.append_assoc, List.append_assoc,
    hw pre (v ++ (x ++ rest)) hp (hv.plain.ends fun h => absurd h hne), qualifyTail_plain hv.plain,
    hx (pre ++ w ++ v) rest (hv.apart fun h => absurd h hne) hr]
  simp

theorem name (hx : isIdentifier x = true) : Turns names item x (qualifiedName names item x) :=
  fun _ _ hp hr => qualifyTail_name hx hp hr

theorem literal {q : Char} {body : List Char} (hq : isQuote q = true) (hb : LiteralBody q body) :
    Turns names item (q :: (body ++ [q])) (q :: (body ++ [q])) := by
  intro pre rest _ _
  have hliteral : qualifyTail names item pre .code (q :: (body ++ q :: rest)) =
      q :: (body ++ q :: qualifyTail names item (pre ++ (q :: (body ++ [q]))) .code rest) :=
    qualifyTail_literal hq hb
  simpa using hliteral

/-- A member stays behind its dot, and behind blanks if it is none of the names. -/
theorem member (hw : Turns names item w w') (hu : IsPlain u) {g : List Char} (hg : IsSpace g)
    (hx : isIdentifier x = true) (h : g = [] ∨ names.contains (String.ofList x) = false) :
    Turns names item (w ++ (u ++ '.' :: (g ++ x))) (w' ++ (u ++ '.' :: (g ++ x))) := by
  intro pre rest hp hr
  have hdot : IsPlain (u ++ ['.']) := hu.append fun c hc => by
    rw [List.mem_singleton.1 hc]
    decide
  have hlink : u ++ '.' :: (g ++ x) ++ rest = (u ++ ['.']) ++ (g ++ (x ++ rest)) := by simp
  have hmember : qualifyTail names item (pre ++ w ++ (u ++ ['.']) ++ g) .code (x ++ rest) =
      x ++ qualifyTail names item (pre ++ w ++ (u ++ ['.']) ++ g ++ x) .code rest := by
    by_cases hnil : g = []
    · refine qualifyTail_joined (by simp [hnil, joinsWord]) fun c hc => ?_
      rw [joinsWord, isIdentifierChar_of_mem hx hc, Bool.or_true]
    · rw [qualifyTail_name hx (hg.apart fun h => absurd h hnil) hr, qualifiedName,
        h.resolve_left hnil, if_neg Bool.false_ne_true]
  rw [List.append_assoc, hlink, hw pre _ hp (hdot.ends fun h => absurd h (by simp)),
    qualifyTail_plain hdot, qualifyTail_plain hg.plain, hmember]
  simp

/-- A number goes on from its first digit. -/
theorem number {c : Char} (hc : c.isDigit = true) (hw : ∀ d ∈ w, joinsWord d = true) :
    Turns names item (c :: w) (c :: w) := by
  intro pre rest _ _
  have hname : isIdentifierChar c = true := by simp [isIdentifierChar, Char.isAlphanum, hc]
  have hstart : isIdentifierStart c = false := by
    have hcode : 48 ≤ c.toNat ∧ c.toNat ≤ 57 := by
      simp only [Char.isDigit, Bool.and_eq_true, decide_eq_true_eq] at hc
      exact hc
    rw [← Bool.not_eq_true]
    intro h
    simp only [isIdentifierStart, Bool.or_eq_true, isAlpha_iff, beq_iff_eq] at h
    rcases h with (h | rfl) | rfl
    · omega
    · exact absurd hcode (by decide)
    · exact absurd hcode (by decide)
  have hquote : isQuote c = false := isQuote_eq_false (isOrdinary_of_isIdentifierChar hname)
  rw [List.cons_append, qualifyTail_kept (by simp [hstart]), if_neg (by simp [hquote]),
    qualifyTail_joined (by simp [joinsWord, hname]) hw]
  simp

end Turns

/-- A whole text. -/
theorem Turns.qualify_eq {item : String} {w w' : List Char} (h : Turns names item.toList w w') :
    qualify names item (String.ofList w) = String.ofList w' := by
  have hall := h [] [] rfl (by simp [Ends])
  have hnil : qualifyTail names item.toList ([] ++ w) .code [] = [] := by
    simp [qualifyTail, marksFrom, qualifyFrom]
  rw [List.append_nil, hnil, List.append_nil] at hall
  rw [qualify_ofList, hall]

end

end JsxToJinja.Qualified
