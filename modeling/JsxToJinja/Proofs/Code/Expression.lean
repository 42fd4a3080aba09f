import JsxToJinja.Proofs.Classes.Presence
import JsxToJinja.Proofs.Code.Literals
import JsxToJinja.Proofs.Markup.Elements

/-! Expressions over the values of properties, their truth, and the texts they are written as. The
levels of the text relation are those of the operators: 0 for conditionals, 1 for `||`, 2 for `&&`,
3 for comparisons, 4 for `!` and 5 for what stands alone. -/
namespace JsxToJinja.Code
open JsxToJinja.Text JsxToJinja.Markup

inductive Junction where
  | conj
  | disj
deriving DecidableEq

namespace Junction

def level : Junction → Nat
  | conj => 2
  | disj => 1

def char : Junction → Char
  | conj => '&'
  | disj => '|'

def symbol (j : Junction) : List Char := [j.char, j.char]

end Junction

inductive Expression where
  /-- An identifier or a member path. -/
  | path (name : String)
  | str (value : String)
  | markup (usage : Usage)
  /-- A keyword for a value that is false. -/
  | absent
  | compare (negated : Bool) (name : String) (value : Json)
  | not (e : Expression)
  | join (j : Junction) (a b : Expression)
  | cond (c a b : Expression)

namespace Expression

/-- Truth of an expression when the paths have values. Markup is true. -/
def truth (env : String → Json) : Expression → Bool
  | path x => (env x).isTruthy
  | str v => !v.isEmpty
  | markup _ => true
  | absent => false
  | compare negated x v => (env x).strictEquals v != negated
  | not e => !e.truth env
  | join .conj a b => a.truth env && b.truth env
  | join .disj a b => a.truth env || b.truth env
  | cond c a b => if c.truth env then a.truth env else b.truth env

def hasMarkup : Expression → Bool
  | markup _ => true
  | not e => e.hasMarkup
  | join _ a b => a.hasMarkup || b.hasMarkup
  | cond c a b => c.hasMarkup || a.hasMarkup || b.hasMarkup
  | _ => false

end Expression

/-! ### Texts of what stands alone -/

/-- Characters whose escape is not the character itself. -/
def escapeLetters : List Char := "bfnrtv0123456789xu\n\r".toList

/-- What stands between two quotes, and the text it stands for. -/
inductive Spelled (q : Char) : List Char → List Char → Prop where
  | nil : Spelled q [] []
  | plain {c : Char} {b v : List Char} : c ≠ '\\' → c ≠ q → Spelled q b v →
      Spelled q (c :: b) (c :: v)
  | newline {b v : List Char} : Spelled q b v → Spelled q ('\\' :: 'n' :: b) ('\n' :: v)
  | tab {b v : List Char} : Spelled q b v → Spelled q ('\\' :: 't' :: b) ('\t' :: v)
  | same {c : Char} {b v : List Char} : c ∉ escapeLetters → Spelled q b v →
      Spelled q ('\\' :: c :: b) (c :: v)

/-- A quoted text. -/
inductive Quoted (v : List Char) : List Char → Prop where
  | mk {q : Char} {b : List Char} : q = '\x27' ∨ q = '\x22' → Spelled q b v →
      Quoted v (q :: (b ++ [q]))

/-- Plain characters are written as they are. -/
theorem quoted_of_plain {q : Char} {v : List Char} (hq : q = '\x27' ∨ q = '\x22')
    (hs : '\\' ∉ v) (hv : q ∉ v) : Quoted v (q :: (v ++ [q])) := by
  refine .mk hq ?_
  induction v with
  | nil => exact .nil
  | cons c v ih =>
    simp only [List.mem_cons, not_or] at hs hv
    exact .plain (Ne.symm hs.1) (Ne.symm hv.1) (ih hs.2 hv.2)

/-- Names joined by `.` or `?.`. -/
inductive IsPath : List Char → Prop where
  | name {t : List Char} : isIdentifier t = true → IsPath t
  | dot {t r : List Char} : isIdentifier t = true → IsPath r → IsPath (t ++ '.' :: r)
  | link {t r : List Char} : isIdentifier t = true → IsPath r → IsPath (t ++ '?' :: '.' :: r)

/-- Keywords for values, which are no paths. -/
def valueWords : List String := ["true", "false", "null", "undefined"]

def absentWords : List String := ["null", "undefined", "false"]

theorem of_mem_absentWords : ∀ w ∈ absentWords, isIdentifier w.toList = true ∧ w ∈ valueWords := by
  decide

/-- The other side of a comparison: a quoted text, or an integer that is read as the double nearest to
it. -/
inductive Operand : Json → List Char → Prop where
  | str {s : String} {t : List Char} : Quoted s.toList t → Operand (.str s) t
  | num {n : Number} {t : List Char} : (∀ c ∈ t, c.isDigit = true ∨ c = '-') →
      Number.parse? t = some n → n.asDouble.same (Number.int (Number.integer t)).asDouble = true →
      Operand (.num n) t

def comparison (negated : Bool) : List Char := (if negated then "!==" else "===").toList

/-- Text of an expression that may stand where operators of a level and above it may. Conjunctions and
disjunctions nest to the left; parentheses may be put around anything. -/
inductive Reads : Nat → Expression → List Char → Prop where
  | path {k : Nat} {x : String} : k ≤ 5 → IsPath x.toList → x ∉ valueWords →
      Reads k (.path x) x.toList
  | str {k : Nat} {v : String} {t : List Char} : k ≤ 5 → Quoted v.toList t → Reads k (.str v) t
  | markup {k : Nat} {u : Usage} {t : List Char} : k ≤ 5 → IsElement u t → Reads k (.markup u) t
  | absent {k : Nat} {w : String} : k ≤ 5 → w ∈ absentWords → Reads k .absent w.toList
  | compare {k : Nat} {negated : Bool} {x : String} {v : Json} {p q l : List Char} :
      k ≤ 3 → isIdentifier x.toList = true → x ∉ valueWords → Operand v l → Blank p → Blank q →
      Reads k (.compare negated x v) (x.toList ++ (p ++ (comparison negated ++ (q ++ l))))
  | flipped {k : Nat} {negated : Bool} {x : String} {v : Json} {p q l : List Char} :
      k ≤ 3 → isIdentifier x.toList = true → x ∉ valueWords → Operand v l → Blank p → Blank q →
      Reads k (.compare negated x v) (l ++ (p ++ (comparison negated ++ (q ++ x.toList))))
  | not {k : Nat} {e : Expression} {p t : List Char} : k ≤ 4 → Blank p → Reads 4 e t →
      Reads k (.not e) ('!' :: (p ++ t))
  | join {k : Nat} {j : Junction} {a b : Expression} {s p q t : List Char} : k ≤ j.level →
      Reads j.level a s → Reads (j.level + 1) b t → Blank p → Blank q →
      Reads k (.join j a b) (s ++ (p ++ (j.symbol ++ (q ++ t))))
  | cond {c a b : Expression} {s x y p q r u : List Char} : Reads 1 c s → Reads 0 a x →
      Reads 0 b y → Blank p → Blank q → Blank r → Blank u →
      Reads 0 (.cond c a b) (s ++ (p ++ '?' :: (q ++ (x ++ (r ++ ':' :: (u ++ y))))))
  | paren {k : Nat} {e : Expression} {p q t : List Char} : k ≤ 5 → Reads 0 e t → Blank p →
      Blank q → Reads k e ('(' :: (p ++ (t ++ (q ++ [')']))))

noncomputable def meaning? (code : String) : Option Expression :=
  open Classical in if h : ∃ e, Reads 0 e code.toList then some h.choose else none

/-- Truth of code. What cannot be read is not true. -/
noncomputable def codeTruth (env : String → Json) (code : String) : Bool :=
  (meaning? code).any (·.truth env)

/-- What may stand for more may stand for less. -/
theorem Reads.mono {k l : Nat} {e : Expression} {t : List Char} (h : Reads k e t) (hl : l ≤ k) :
    Reads l e t := by
  cases h with
  | path hk hp hw => exact .path (Nat.le_trans hl hk) hp hw
  | str hk hq => exact .str (Nat.le_trans hl hk) hq
  | markup hk hm => exact .markup (Nat.le_trans hl hk) hm
  | absent hk hw => exact .absent (Nat.le_trans hl hk) hw
  | compare hk hx hw hv hp hq => exact .compare (Nat.le_trans hl hk) hx hw hv hp hq
  | flipped hk hx hw hv hp hq => exact .flipped (Nat.le_trans hl hk) hx hw hv hp hq
  | not hk hp he => exact .not (Nat.le_trans hl hk) hp he
  | join hk ha hb hp hq => exact .join (Nat.le_trans hl hk) ha hb hp hq
  | cond hc ha hb hp hq hr hu =>
    obtain rfl := Nat.le_zero.1 hl
    exact .cond hc ha hb hp hq hr hu
  | paren hk he hp hq => exact .paren (Nat.le_trans hl hk) he hp hq

/-! ### The ends of a text -/

/-- A character that a text may start or end with. -/
def isEdge (c : Char) : Bool := isIdentifierChar c || isQuote c || "<>!()-".toList.contains c

/-- Not empty, with such characters at both ends. -/
structure Edged (t : List Char) : Prop where
  head : ∃ c ∈ t.head?, isEdge c = true
  last : ∃ c ∈ t.getLast?, isEdge c = true

/-- What is no edge is at no end. -/
theorem ne_of_isEdge {c d : Char} (hc : isEdge c = true) (hd : isEdge d = false) : c ≠ d := by
  rintro rfl
  simp [hc] at hd

theorem not_blank_of_isEdge {c : Char} (h : isEdge c = true) : isBlank c = false := by
  simp only [isEdge, Bool.or_eq_true] at h
  rcases h with (h | h) | h
  · exact not_blank_of_isIdentifierChar h
  · exact not_blank_of_isQuote h
  · have hall : ∀ d ∈ "<>!()-".toList, isBlank d = false := by decide
    exact hall c (List.contains_iff_mem.1 h)

theorem Edged.trimmed {t : List Char} (h : Edged t) : Trimmed t := by
  obtain ⟨c, hc, hec⟩ := h.head
  obtain ⟨d, hd, hed⟩ := h.last
  refine ⟨fun x hx => ?_, fun x hx => ?_⟩
  · rw [Option.mem_unique hx hc]
    exact not_blank_of_isEdge hec
  · rw [Option.mem_unique hx hd]
    exact not_blank_of_isEdge hed

theorem Edged.ne_nil {t : List Char} (h : Edged t) : t ≠ [] := by
  rintro rfl
  obtain ⟨c, hc, -⟩ := h.head
  cases hc

theorem Edged.between {s r : List Char} (hs : Edged s) (hr : Edged r) (t : List Char) :
    Edged (s ++ (t ++ r)) := by
  obtain ⟨c, hc, hec⟩ := hs.head
  obtain ⟨d, hd, hed⟩ := hr.last
  exact ⟨⟨c, by simp [Option.mem_def.1 hc], hec⟩,
    ⟨d, by simp [List.getLast?_append, Option.mem_def.1 hd], hed⟩⟩

theorem Edged.endsPlain {t p : List Char} (h : Edged t) (hp : Blank p) : EndsPlain (t ++ p) := by
  obtain ⟨c, hc, hec⟩ := h.last
  cases hl : p.getLast? with
  | none =>
    rw [List.getLast?_eq_none_iff.1 hl, List.append_nil]
    exact ⟨c, hc, ne_of_isEdge hec (by decide)⟩
  | some d =>
    refine ⟨d, by simp [List.getLast?_append, hl], ?_⟩
    rintro rfl
    exact absurd (hp '?' (List.mem_of_mem_getLast? hl)) (by decide)

theorem Edged.startsPlain {t p : List Char} (h : Edged t) (hp : Blank p) (rest : List Char) :
    StartsPlain (p ++ (t ++ rest)) := by
  obtain ⟨c, hc, hec⟩ := h.head
  cases p with
  | nil =>
    exact ⟨c, by simp [Option.mem_def.1 hc], ne_of_isEdge hec (by decide), ne_of_isEdge hec (by decide)⟩
  | cons d p =>
    refine ⟨d, rfl, ?_, ?_⟩
    all_goals
      rintro rfl
      exact absurd (hp _ List.mem_cons_self) (by decide)

/-- Blanks in front of a text do not let it start with anything else. -/
theorem Edged.head?_pad_ne {t p : List Char} {d : Char} (h : Edged t) (hp : Blank p)
    (he : isEdge d = false) (hb : isBlank d = false) : (p ++ t).head? ≠ some d := by
  obtain ⟨c, hc, hec⟩ := h.head
  cases p with
  | nil =>
    rw [List.nil_append, Option.mem_def.1 hc]
    exact fun hd => ne_of_isEdge hec he (Option.some.inj hd)
  | cons b p =>
    simp only [List.cons_append, List.head?_cons, ne_eq, Option.some.injEq]
    rintro rfl
    simp [hp b List.mem_cons_self] at hb

theorem edged_cons_concat {a b : Char} (ha : isEdge a = true) (hb : isEdge b = true)
    (t : List Char) : Edged (a :: (t ++ [b])) :=
  ⟨⟨a, rfl, ha⟩, ⟨b, by simp [List.getLast?_cons, List.getLast?_append], hb⟩⟩

theorem edged_of_all {t : List Char} (hne : t ≠ []) (h : ∀ c ∈ t, isEdge c = true) : Edged t := by
  refine ⟨⟨t.head hne, List.head?_eq_some_head hne, h _ (List.head_mem hne)⟩,
    ⟨t.getLast hne, List.getLast?_eq_some_getLast hne, h _ (List.getLast_mem hne)⟩⟩

theorem edged_of_isIdentifier {t : List Char} (h : isIdentifier t = true) : Edged t :=
  edged_of_all (ne_nil_of_isIdentifier h) fun c hc => by
    simp [isEdge, isIdentifierChar_of_mem h hc]

theorem IsPath.edged {t : List Char} (h : IsPath t) : Edged t := by
  induction h with
  | name ht => exact edged_of_isIdentifier ht
  | dot ht _ ih => exact (edged_of_isIdentifier ht).between ih ['.']
  | link ht _ ih => exact (edged_of_isIdentifier ht).between ih ['?', '.']

theorem Quoted.edged {v t : List Char} (h : Quoted v t) : Edged t := by
  cases h with
  | @mk q b hq _ =>
    have he : isEdge q = true := by rcases hq with rfl | rfl <;> decide
    exact edged_cons_concat he he b

theorem Operand.edged {v : Json} {t : List Char} (h : Operand v t) : Edged t := by
  cases h with
  | str h => exact h.edged
  | num hc hn _ =>
    refine edged_of_all (Number.ne_nil_of_parse? hn) fun c hm => ?_
    rcases hc c hm with h | rfl
    · simp [isEdge, isIdentifierChar, Char.isAlphanum, h]
    · decide

theorem Reads.edged {k : Nat} {e : Expression} {t : List Char} (h : Reads k e t) : Edged t := by
  induction h with
  | path _ hp _ => exact hp.edged
  | str _ hq => exact hq.edged
  | markup _ hm => exact ⟨⟨'<', hm.head, by decide⟩, ⟨'>', hm.last, by decide⟩⟩
  | absent _ hw => exact edged_of_isIdentifier (of_mem_absentWords _ hw).1
  | compare _ hx _ hv _ _ => simpa using (edged_of_isIdentifier hx).between hv.edged (_ ++ (_ ++ _))
  | flipped _ hx _ hv _ _ => simpa using hv.edged.between (edged_of_isIdentifier hx) (_ ++ (_ ++ _))
  | not _ _ _ ih =>
    obtain ⟨c, hc, hec⟩ := ih.last
    exact ⟨⟨'!', rfl, by decide⟩,
      ⟨c, by simp [List.getLast?_cons, List.getLast?_append, Option.mem_def.1 hc], hec⟩⟩
  | join _ _ _ _ _ iha ihb => simpa using iha.between ihb (_ ++ (_ ++ _))
  | @cond c a b s x y p q r u _ _ _ _ _ _ _ ihc _ ihb =>
    simpa using ihc.between ihb (p ++ '?' :: (q ++ (x ++ (r ++ ':' :: u))))
  | @paren k e p q t _ _ _ _ _ =>
    rw [paren_text]
    exact edged_cons_concat (by decide) (by decide) _

/-! ### Nesting -/

theorem Spelled.literalBody {q : Char} {b v : List Char} (h : Spelled q b v) : LiteralBody q b := by
  induction h with
  | nil => exact .nil
  | plain hc hq _ ih => exact .plain hc hq ih
  | newline _ ih => exact .escape ih
  | tab _ ih => exact .escape ih
  | same _ _ ih => exact .escape ih

theorem unescape_cons {c : Char} (h : c ≠ '\\') (t : List Char) :
    unescape (c :: t) = c :: unescape t := by
  cases t with
  | nil => simp [unescape, h]
  | cons d t => simp [unescape, h]

/-- What is written is what is read. -/
theorem Spelled.unescape_eq {q : Char} {b v : List Char} (h : Spelled q b v) : unescape b = v := by
  induction h with
  | nil => rfl
  | plain hc _ _ ih => rw [unescape_cons hc, ih]
  | newline _ ih => simp [unescape, ih]
  | tab _ ih => simp [unescape, ih]
  | @same c b v hc _ ih =>
    have hn : ¬ (c == 'n') = true := by
      rw [beq_iff_eq]
      rintro rfl
      exact hc (by decide)
    have ht : ¬ (c == 't') = true := by
      rw [beq_iff_eq]
      rintro rfl
      exact hc (by decide)
    simp only [unescape, beq_self_eq_true, if_true, if_neg hn, if_neg ht, ih]

theorem Quoted.stringLiteral?_eq {v t : List Char} (h : Quoted v t) : stringLiteral? t = some v := by
  cases h with
  | mk hq hs =>
    rw [stringLiteral?_literal, hs.unescape_eq]
    · rcases hq with rfl | rfl <;> decide
    · rcases hq with rfl | rfl <;> decide
    · exact hs.literalBody

/-- Characters that texts of a level and above it hold only inside brackets and literals. -/
def clear : Nat → List Char
  | 0 => [',']
  | 1 => [':', '?', ',']
  | 2 => ['|', ':', '?', ',']
  | 3 => ['&', '|', ':', '?', ',']
  | _ => ['=', '&', '|', ':', '?', ',']

/-- Expressions of a higher level hold fewer operators outside brackets. -/
theorem clear_subset {k l : Nat} (h : k ≤ l) : clear k ⊆ clear l := by
  have hstep (n : Nat) : clear n ⊆ clear (n + 1) := by
    match n with
    | 0 | 1 | 2 | 3 => decide
    | n + 4 => exact fun _ hc => hc
  induction h with
  | refl => exact fun _ hc => hc
  | step _ ih => exact fun _ hc => hstep _ (ih hc)

/-- Characters that are no blanks and stand in no name and no number. -/
def isSign (c : Char) : Bool := !isBlank c && !isIdentifierChar c && c != '-' && c != '.'

theorem of_mem_clear {k : Nat} {c : Char} (h : c ∈ clear k) : isSign c = true ∧ c ≠ '!' := by
  have hall : ∀ d ∈ ['=', '&', '|', ':', '?', ','], isSign d = true ∧ d ≠ '!' := by decide
  have hmem : c ∈ clear (k + 4) := clear_subset (Nat.le_add_right k 4) h
  exact hall c hmem

theorem Junction.char_notMem_clear (j : Junction) : j.char ∉ clear j.level := by
  cases j <;> decide

section
variable {avoid t : List Char}

theorem sealed_pad (ha : ∀ c ∈ avoid, isSign c = true) (ht : Blank t) : Sealed avoid t :=
  sealed_of_blank ht fun c hc => by
    have := ha c hc
    simp only [isSign, Bool.and_eq_true, Bool.not_eq_true'] at this
    exact this.1.1.1

theorem sealed_name (ha : ∀ c ∈ avoid, isSign c = true) (ht : isIdentifier t = true) :
    Sealed avoid t :=
  sealed_of_nameChars (fun _ hc => isIdentifierChar_of_mem ht hc) fun c hc => by
    have := ha c hc
    simp only [isSign, Bool.and_eq_true, Bool.not_eq_true'] at this
    exact this.1.1.2

theorem IsPath.sealed (ha : ∀ c ∈ avoid, isSign c = true) (ht : IsPath t) : Sealed avoid t := by
  have hdot : '.' ∉ avoid := fun hm => absurd (ha _ hm) (by decide)
  induction ht with
  | name ht => exact sealed_name ha ht
  | dot ht _ ih => exact (sealed_name ha ht).append (.plain hdot (by decide) ih)
  | link ht _ ih => exact (sealed_name ha ht).append (.link hdot ih)

theorem Quoted.sealed {v : List Char} (ht : Quoted v t) : Sealed avoid t := by
  cases ht with
  | mk hq hs => exact sealed_literal (by rcases hq with rfl | rfl <;> decide) hs.literalBody

/-- An operand holds no sign outside its quotes. -/
theorem Operand.sealed {v : Json} (ha : ∀ c ∈ avoid, isSign c = true) (ht : Operand v t) :
    Sealed avoid t := by
  cases ht with
  | str h => exact h.sealed
  | num hc _ _ =>
    apply sealed_of_ordinary
    intro c hm
    rcases hc c hm with h | rfl
    · have hname : isIdentifierChar c = true := by simp [isIdentifierChar, Char.isAlphanum, h]
      exact ⟨fun hm => by simpa [isSign, hname] using ha c hm, isOrdinary_of_isIdentifierChar hname⟩
    · exact ⟨fun hm => absurd (ha _ hm) (by decide), by decide⟩

theorem sealed_absent {w : String} (ha : ∀ c ∈ avoid, isSign c = true) (hw : w ∈ absentWords) :
    Sealed avoid w.toList := by
  exact sealed_name ha (of_mem_absentWords w hw).1

theorem sealed_comparison {negated : Bool} (ha : avoid ⊆ clear 3) :
    Sealed avoid (comparison negated) := by
  have heq : '=' ∉ avoid := fun h => absurd (ha h) (by decide)
  have hnot : '!' ∉ avoid := fun h => absurd (ha h) (by decide)
  cases negated with
  | true => exact .plain hnot (by decide) (.plain heq (by decide) (.plain heq (by decide) .nil))
  | false => exact .plain heq (by decide) (.plain heq (by decide) (.plain heq (by decide) .nil))

/-- Texts of an expression are properly nested, and what their level keeps out stands nowhere outside
brackets and literals. Markup keeps out operators only. -/
theorem Reads.sealed {k : Nat} {e : Expression} (h : Reads k e t) (ha : avoid ⊆ clear k)
    (hm : e.hasMarkup = true → avoid ⊆ operatorChars) : Sealed avoid t := by
  induction h generalizing avoid with
  | path _ hp _ => exact hp.sealed fun _ hc => (of_mem_clear (ha hc)).1
  | str _ hq => exact hq.sealed
  | markup _ hu => exact hu.sealed.mono (hm rfl)
  | absent _ hw => exact sealed_absent (fun _ hc => (of_mem_clear (ha hc)).1) hw
  | compare hk hx _ hv hp hq =>
    have hs : ∀ c ∈ avoid, isSign c = true := fun _ hc => (of_mem_clear (ha hc)).1
    exact (sealed_name hs hx).append ((sealed_pad hs hp).append
      ((sealed_comparison (List.Subset.trans ha (clear_subset hk))).append ((sealed_pad hs hq).append
        (hv.sealed hs))))
  | flipped hk hx _ hv hp hq =>
    have hs : ∀ c ∈ avoid, isSign c = true := fun _ hc => (of_mem_clear (ha hc)).1
    exact (hv.sealed hs).append ((sealed_pad hs hp).append
      ((sealed_comparison (List.Subset.trans ha (clear_subset hk))).append ((sealed_pad hs hq).append
        (sealed_name hs hx))))
  | not hk hp _ ih =>
    have hs : ∀ c ∈ avoid, isSign c = true := fun _ hc => (of_mem_clear (ha hc)).1
    exact .plain (fun hc => (of_mem_clear (ha hc)).2 rfl) (by decide)
      ((sealed_pad hs hp).append (ih (List.Subset.trans ha (clear_subset hk)) hm))
  | @join k j a b s p q t hk _ _ hp hq iha ihb =>
    have hs : ∀ c ∈ avoid, isSign c = true := fun _ hc => (of_mem_clear (ha hc)).1
    have ha' := List.Subset.trans ha (clear_subset hk)
    have hop : Sealed avoid j.symbol := by
      have hc : j.char ∉ avoid := fun hc => j.char_notMem_clear (ha' hc)
      have ho : isOrdinary j.char = true := by cases j <;> decide
      exact .plain hc ho (.plain hc ho .nil)
    have hma := iha ha' fun h => hm (by simp [Expression.hasMarkup, h])
    have hmb := ihb (List.Subset.trans ha' (clear_subset (Nat.le_succ _))) fun h =>
      hm (by simp [Expression.hasMarkup, h])
    exact hma.append ((sealed_pad hs hp).append (hop.append ((sealed_pad hs hq).append hmb)))
  | cond _ _ _ hp hq hr hu ihc iha ihb =>
    have hs : ∀ c ∈ avoid, isSign c = true := fun _ hc => (of_mem_clear (ha hc)).1
    have hc := ihc (List.Subset.trans ha (clear_subset (Nat.zero_le 1))) fun h =>
      hm (by simp [Expression.hasMarkup, h])
    have hx := iha ha fun h => hm (by simp [Expression.hasMarkup, h])
    have hy := ihb ha fun h => hm (by simp [Expression.hasMarkup, h])
    have hquestion : '?' ∉ avoid := fun h => absurd (ha h) (by decide)
    have hcolon : ':' ∉ avoid := fun h => absurd (ha h) (by decide)
    exact hc.append ((sealed_pad hs hp).append (.plain hquestion (by decide)
      ((sealed_pad hs hq).append (hx.append ((sealed_pad hs hr).append (.plain hcolon (by decide)
        ((sealed_pad hs hu).append hy)))))))
  | paren _ _ hp hq ih => exact (ih (by simp) (by simp)).paren hp hq

theorem Reads.nested {k : Nat} {e : Expression} (h : Reads k e t) : Sealed [] t :=
  h.sealed (by simp) (by simp)

end

/-! ### What stands in front -/

/-- The first thing in a text: a name, a number, `!`, a literal, an element or a group. -/
inductive Front : List Char → Prop where
  | char {c : Char} (rest : List Char) : isIdentifierChar c = true ∨ c = '-' ∨ c = '!' →
      Front (c :: rest)
  | literal {q : Char} {body : List Char} (rest : List Char) : isQuote q = true →
      LiteralBody q body → Front (q :: (body ++ q :: rest))
  | element {u : Usage} {m : List Char} (rest : List Char) : IsElement u m → Front (m ++ rest)
  | group {inner : List Char} (rest : List Char) : Sealed [] inner →
      Front ('(' :: (inner ++ ')' :: rest))

theorem Front.append {t : List Char} (h : Front t) (r : List Char) : Front (t ++ r) := by
  cases h with
  | char rest hc => exact .char (rest ++ r) hc
  | literal rest hq hb => simpa using Front.literal (rest ++ r) hq hb
  | element rest hm => simpa using Front.element (rest ++ r) hm
  | group rest hi => simpa using Front.group (rest ++ r) hi

theorem front_of_isIdentifier {t : List Char} (h : isIdentifier t = true) : Front t := by
  cases t with
  | nil => cases h
  | cons c t => exact .char t (.inl (isIdentifierChar_of_mem h (by simp)))

theorem IsPath.front {t : List Char} (h : IsPath t) : Front t := by
  cases h with
  | name ht => exact front_of_isIdentifier ht
  | dot ht _ => exact (front_of_isIdentifier ht).append _
  | link ht _ => exact (front_of_isIdentifier ht).append _

theorem Quoted.front {v t : List Char} (h : Quoted v t) : Front t := by
  cases h with
  | mk hq hs => exact .literal [] (by rcases hq with rfl | rfl <;> decide) hs.literalBody

/-- An operand begins like a name, a number or a literal. -/
theorem Operand.front {v : Json} {t : List Char} (h : Operand v t) : Front t := by
  cases h with
  | str h => exact h.front
  | num hc hn _ =>
    cases t with
    | nil => exact absurd rfl (Number.ne_nil_of_parse? hn)
    | cons c t =>
      refine .char t ?_
      rcases hc c List.mem_cons_self with h | h
      · exact .inl (by simp [isIdentifierChar, Char.isAlphanum, h])
      · exact .inr (.inl h)

theorem Reads.front {k : Nat} {e : Expression} {t : List Char} (h : Reads k e t) : Front t := by
  induction h with
  | path _ hp _ => exact hp.front
  | str _ hq => exact hq.front
  | @markup k u t _ hm => simpa using Front.element [] hm
  | absent _ hw => exact front_of_isIdentifier (of_mem_absentWords _ hw).1
  | compare _ hx _ _ _ _ => exact (front_of_isIdentifier hx).append _
  | flipped _ _ _ hv _ _ => exact hv.front.append _
  | not _ _ _ _ => exact .char _ (.inr (.inr rfl))
  | join _ _ _ _ _ iha _ => exact iha.append _
  | cond _ _ _ _ _ _ _ ihc _ _ => exact ihc.append _
  | @paren k e p q t _ ht hp hq _ =>
    have hpad {p : List Char} (hp : Blank p) : Sealed [] p := sealed_of_blank hp (by simp)
    simpa using Front.group [] ((hpad hp).append (ht.nested.append (hpad hq)))

/-- A group with something behind it is not the whole text. -/
theorem Front.isGroup_append {t rest : List Char} (h : Front t) (hne : rest ≠ []) :
    isGroup '(' (t ++ rest) = false := by
  cases h with
  | char r hc =>
    refine isGroup_of_head fun he => ?_
    simp only [List.cons_append, List.head?_cons, Option.some.injEq] at he
    subst he
    exact absurd hc (by decide)
  | literal r hq hb =>
    refine isGroup_of_head fun he => ?_
    simp only [List.cons_append, List.head?_cons, Option.some.injEq] at he
    subst he
    exact absurd hq (by decide)
  | @element u m r hm =>
    refine isGroup_of_head ?_
    obtain ⟨m', rfl⟩ := List.head?_eq_some_iff.1 hm.head
    simp
  | @group inner r hi =>
    have hclose : closingFor? '(' = some ')' := by decide
    have hrest : r ++ rest ≠ [] := by simp [hne]
    simpa using Code.isGroup_append hclose hi hrest '('

/-- A literal with something behind it is no single literal. -/
theorem Front.singleLiteral?_append {t rest : List Char} (h : Front t) (hne : rest ≠ [])
    (ht : Trimmed (t ++ rest)) : singleLiteral? (t ++ rest) = none := by
  have hhead (hq : ∀ c ∈ (t ++ rest).head?, isQuote c = false) : singleLiteral? (t ++ rest) = none :=
    singleLiteral?_of_head (by rwa [ht.trim_eq])
  cases h with
  | char r hc =>
    apply hhead
    simp only [List.cons_append, List.head?_cons, Option.mem_some_iff, forall_eq']
    rcases hc with hc | rfl | rfl
    · exact isQuote_eq_false (isOrdinary_of_isIdentifierChar hc)
    all_goals decide
  | @literal q body r hq hb =>
    have hrest : r ++ rest ≠ [] := by simp [hne]
    have htext : q :: (body ++ q :: r) ++ rest = q :: (body ++ q :: (r ++ rest)) := by simp
    rw [htext] at ht ⊢
    exact Code.singleLiteral?_append hq hb hrest ht
  | element r hm =>
    apply hhead
    obtain ⟨m', rfl⟩ := List.head?_eq_some_iff.1 hm.head
    simp [isQuote]
  | group r hi =>
    apply hhead
    simp [isQuote]

/-- An element with something behind it does not make up the whole text. -/
theorem Front.wholeElement?_append {t rest : List Char} (h : Front t) (hne : rest ≠ []) :
    Content.wholeElement? (t ++ rest) = none := by
  cases h with
  | char r hc =>
    refine wholeElement?_of_head fun he => ?_
    simp only [List.cons_append, List.head?_cons, Option.some.injEq] at he
    subst he
    exact absurd hc (by decide)
  | literal r hq hb =>
    refine wholeElement?_of_head fun he => ?_
    simp only [List.cons_append, List.head?_cons, Option.some.injEq] at he
    subst he
    exact absurd hq (by decide)
  | @element u m r hm =>
    have hrest : r ++ rest ≠ [] := by simp [hne]
    simpa using hm.wholeElement?_append hrest
  | group r hi => exact wholeElement?_of_head (by simp)

theorem head?_name_ne {t : List Char} {d : Char} (h : isIdentifier t = true)
    (hd : isIdentifierChar d = false) (rest : List Char) : (t ++ rest).head? ≠ some d := by
  cases t with
  | nil => cases h
  | cons c t => simpa using ne_of_isIdentifierChar (isIdentifierChar_of_mem h (by simp)) hd

theorem IsPath.head?_ne {t : List Char} {d : Char} (h : IsPath t)
    (hd : isIdentifierChar d = false) : t.head? ≠ some d := by
  cases h with
  | name ht => simpa using head?_name_ne ht hd []
  | dot ht _ => exact head?_name_ne ht hd _
  | link ht _ => exact head?_name_ne ht hd _

/-- A path is no text in quotes. -/
theorem IsPath.stringLiteral?_eq_none {t : List Char} (h : IsPath t) : stringLiteral? t = none := by
  apply stringLiteral?_of_head
  rw [h.edged.trimmed.trim_eq]
  intro c hc
  rw [← Bool.not_eq_true]
  intro hq
  refine h.head?_ne ?_ hc
  simp only [isQuote, Bool.or_eq_true, beq_iff_eq] at hq
  rcases hq with (rfl | rfl) | rfl <;> decide

theorem Quoted.head?_ne {v t : List Char} {d : Char} (h : Quoted v t) (hd : isQuote d = false)
    (rest : List Char) : (t ++ rest).head? ≠ some d := by
  cases h with
  | mk hq _ =>
    simp only [List.cons_append, List.head?_cons, ne_eq, Option.some.injEq]
    rintro rfl
    rcases hq with rfl | rfl <;> exact absurd hd (by decide)

/-- Operands begin with a letter, a digit, a quote or a minus. -/
theorem Operand.head?_ne {v : Json} {t : List Char} {d : Char} (h : Operand v t)
    (hd : isIdentifierChar d = false) (hq : isQuote d = false) (hm : d ≠ '-') (rest : List Char) :
    (t ++ rest).head? ≠ some d := by
  cases h with
  | str h => exact h.head?_ne hq rest
  | num hc hn _ =>
    cases t with
    | nil => exact absurd rfl (Number.ne_nil_of_parse? hn)
    | cons c t =>
      simp only [List.cons_append, List.head?_cons, ne_eq, Option.some.injEq]
      rintro rfl
      rcases hc c List.mem_cons_self with h | h
      · simp [isIdentifierChar, Char.isAlphanum, h] at hd
      · exact hm h

/-! ### Parentheses -/

/-- Parentheses around an expression do not count: what is left reads the same and is no group. -/
theorem Reads.strip {k : Nat} {e : Expression} {t : List Char} (h : Reads k e t) :
    Reads 0 e (stripOuterParens t) ∧ isGroup '(' (stripOuterParens t) = false ∧
      stripOuterParens t <:+: t := by
  have hself {k : Nat} {e : Expression} {t : List Char} (h : Reads k e t)
      (hg : isGroup '(' t = false) : Reads 0 e (stripOuterParens t) ∧
        isGroup '(' (stripOuterParens t) = false ∧ stripOuterParens t <:+: t := by
    rw [stripOuterParens_of_not_group h.edged.trimmed hg]
    exact ⟨h.mono (Nat.zero_le k), hg, List.infix_rfl⟩
  induction h with
  | path hk hp hw => exact hself (.path hk hp hw) (isGroup_of_head (hp.head?_ne (by decide)))
  | str hk hq => exact hself (.str hk hq) (isGroup_of_head (by simpa using hq.head?_ne (by decide) []))
  | markup hk hm => exact hself (.markup hk hm) (isGroup_of_head (by simp [hm.head]))
  | absent hk hw =>
    refine hself (.absent hk hw) (isGroup_of_head ?_)
    simpa using head?_name_ne (of_mem_absentWords _ hw).1 (by decide) []
  | compare hk hx hw hv hp hq =>
    exact hself (.compare hk hx hw hv hp hq) (isGroup_of_head (head?_name_ne hx (by decide) _))
  | flipped hk hx hw hv hp hq =>
    exact hself (.flipped hk hx hw hv hp hq)
      (isGroup_of_head (hv.head?_ne (by decide) (by decide) (by decide) _))
  | not hk hp he _ => exact hself (.not hk hp he) (isGroup_of_head (by simp))
  | join hk ha hb hp hq _ _ =>
    exact hself (.join hk ha hb hp hq) (ha.front.isGroup_append (by simp [Junction.symbol]))
  | cond hc ha hb hp hq hr hu _ _ _ =>
    exact hself (.cond hc ha hb hp hq hr hu) (hc.front.isGroup_append (by simp))
  | @paren k e p q t hk ht hp hq ih =>
    rw [stripOuterParens_paren ht.nested ht.edged.trimmed hp hq]
    obtain ⟨hr, hg, hi⟩ := ih
    refine ⟨hr, hg, hi.trans ⟨'(' :: p, q ++ [')'], by simp⟩⟩

end JsxToJinja.Code
