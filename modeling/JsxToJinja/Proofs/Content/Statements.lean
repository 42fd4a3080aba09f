import JsxToJinja.Content.Bindings
import JsxToJinja.Proofs.Text.PatternRuns

/-! The patterns that statements are found by: what each of them matches, and texts in which they
match nothing. -/
namespace JsxToJinja.Bindings
open JsxToJinja.Text JsxToJinja.Code

/-- What stands before a stop that does not occur in it stands before the stop. -/
theorem prefix_before {u a r : List Char} {d : Char} (h : a <+: u ++ d :: r) (hd : d ∉ a) :
    a <+: u := by
  induction a generalizing u with
  | nil => exact List.nil_prefix
  | cons c a ih =>
    simp only [List.mem_cons, not_or] at hd
    cases u with
    | nil => exact absurd (List.cons_prefix_cons.1 h).1.symm hd.1
    | cons c' u =>
      rw [List.cons_append, List.cons_prefix_cons] at h
      exact List.cons_prefix_cons.2 ⟨h.1, ih h.2 hd.2⟩

/-! ### Fronts -/

/-- A pattern matches at the edges of words where one of certain texts stands. -/
def Fronted (p : Pattern) (front : List Char → Prop) : Prop :=
  ∀ before i t, (p.matchAt? ⟨before, i, t⟩).isSome = true ↔
    Cursor.atWordEdge ⟨before, i, t⟩ = true ∧ ∃ a, front a ∧ a <+: t

namespace Fronted

variable {p : Pattern} {front : List Char → Prop} {before : Option Char} {w rest : List Char}

theorem matchAt?_eq_none (h : Fronted p front) {i : Nat} {t : List Char}
    (ht : ∀ a, front a → ¬ a <+: t) : p.matchAt? ⟨before, i, t⟩ = none := by
  rw [← Option.not_isSome_iff_eq_none]
  intro hs
  obtain ⟨-, a, ha, hpre⟩ := (h before i t).1 hs
  exact ht a ha hpre

/-- A text without the first character of any front. -/
theorem misses_of_head (h : Fronted p front)
    (hw : ∀ a, front a → ∃ c t, a = c :: t ∧ c ∉ w) : p.Misses before w rest := by
  rintro u v i rfl hv
  refine h.matchAt?_eq_none fun a ha hpre => ?_
  obtain ⟨c, t, rfl, hc⟩ := hw a ha
  obtain ⟨d, v, rfl⟩ := List.exists_cons_of_ne_nil hv
  obtain ⟨rfl, -⟩ := List.cons_prefix_cons.1 hpre
  exact hc (by simp)

/-- A character that occurs in no front closes off the text before it. -/
theorem misses_of_stop (h : Fronted p front) {d : Char} (hd : ∀ a, front a → d ∉ a)
    (hw : p.Misses before w []) : p.Misses before w (d :: rest) := by
  rintro u v i rfl hv
  have hnone := hw u v i rfl hv
  rw [List.append_nil] at hnone
  rw [← Option.not_isSome_iff_eq_none] at hnone ⊢
  intro hs
  obtain ⟨hedge, a, ha, hpre⟩ := (h _ _ _).1 hs
  refine hnone ((h _ _ _).2 ⟨?_, a, ha, prefix_before hpre (hd a ha)⟩)
  obtain ⟨e, v, rfl⟩ := List.exists_cons_of_ne_nil hv
  exact hedge

theorem misses_of_infix (h : Fronted p front) (hw : ∀ a, front a → ¬ a <:+: w) :
    p.Misses before w [] := by
  rintro u v i rfl -
  refine h.matchAt?_eq_none fun a ha hpre => hw a ha ?_
  rw [List.append_nil] at hpre
  exact hpre.isInfix.trans (List.suffix_append u v).isInfix

/-- Where a search finds nothing, nothing matches behind a character outside words either. -/
theorem misses_of_test (h : Fronted p front) (hw : p.test w = false)
    (hb : before.any isWord = false) : p.Misses before w [] := by
  rintro u v i rfl -
  rw [List.append_nil, ← Option.not_isSome_iff_eq_none]
  intro hs
  obtain ⟨hedge, a, ha, hpre⟩ := (h _ _ _).1 hs
  have hfound : p.test (u ++ v) = true := by
    rw [Pattern.test, Pattern.find?, Pattern.searchFrom_isSome]
    refine ⟨u, v, rfl, (h _ _ _).2 ⟨?_, a, ha, hpre⟩⟩
    cases hu : u.getLast? with
    | none =>
      rw [hu, Option.none_or, Cursor.atWordEdge, hb] at hedge
      exact hedge
    | some c =>
      rw [hu] at hedge
      exact hedge
  rw [hfound] at hw
  cases hw

end Fronted

/-- A pattern for statements: it begins with a letter, has no sign that closes or assigns, and
does not fit into a name and the blanks behind it. -/
structure Keyed (p : Pattern) (front : List Char → Prop) : Prop where
  fronted : Fronted p front
  starts : ∀ a, front a → ∃ c t, a = c :: t ∧ isIdentifierStart c = true
  noSign : ∀ a, front a → ∀ d ∈ [')', '=', ';'], d ∉ a
  noName : ∀ a, front a → ∀ x g, isIdentifier x = true → Blank g → ¬ a <:+: x ++ g

namespace Keyed

variable {p : Pattern} {front : List Char → Prop} {before : Option Char} {rest : List Char}

theorem matchAt?_nil (h : Keyed p front) (before : Option Char) (i : Nat) :
    p.matchAt? ⟨before, i, []⟩ = none := by
  refine h.fronted.matchAt?_eq_none fun a ha hpre => ?_
  obtain ⟨c, t, rfl, -⟩ := h.starts a ha
  simp at hpre

/-- Signs and blanks. -/
theorem misses_signs (h : Keyed p front) {w : List Char}
    (hw : ∀ c ∈ w, isIdentifierStart c = false) : p.Misses before w rest := by
  refine h.fronted.misses_of_head fun a ha => ?_
  obtain ⟨c, t, rfl, hc⟩ := h.starts a ha
  refine ⟨c, t, rfl, fun hmem => ?_⟩
  rw [hw c hmem] at hc
  cases hc

/-- A name, and the blanks between it and a sign. -/
theorem misses_name (h : Keyed p front) {x g : List Char} {d : Char} (hx : isIdentifier x = true)
    (hg : Blank g) (hd : d ∈ [')', '=', ';']) : p.Misses before (x ++ g) (d :: rest) :=
  h.fronted.misses_of_stop (fun a ha => h.noSign a ha d hd)
    (h.fronted.misses_of_infix fun a ha => h.noName a ha x g hx hg)

/-- Code in which the search finds nothing, between brackets. -/
theorem misses_code (h : Keyed p front) {w : List Char} (hw : p.test w = false) :
    p.Misses (some '(') w (')' :: rest) :=
  h.fronted.misses_of_stop (fun a ha => h.noSign a ha ')' (by simp))
    (h.fronted.misses_of_test hw (by decide))

end Keyed

theorem of_sign : ∀ d ∈ [')', '=', ';'],
    isBlank d = false ∧ isIdentifierChar d = false ∧ d ≠ '(' := by decide

theorem nameChars_keyword : ∀ kw ∈ ["if", "const", "let", "var"], ∀ c ∈ kw.toList,
    isIdentifierChar c = true := by decide

/-! ### The head of a condition -/

def IfFront (a : List Char) : Prop := ∃ g, Blank g ∧ a = "if".toList ++ (g ++ ['('])

/-- An `if` matches at the edge of a word, in front of blanks and a bracket. -/
theorem fronted_ifHead : Fronted ifHead IfFront := by
  intro before i t
  show ((Pattern.seq (.seq (.seq .wordEdge (.lit "if")) .blanks) (.lit "(")).matchAt? _).isSome = true ↔ _
  simp only [Pattern.matchAt?, Pattern.run, Pattern.blanks, Pattern.run_lit]
  constructor
  · intro h
    split at h
    · rename_i hedge
      refine ⟨hedge, ?_⟩
      split at h
      · rename_i hif
        obtain ⟨r, rfl⟩ := List.isPrefixOf_iff_prefix.1 hif
        rw [List.drop_left] at h
        obtain ⟨g, r, rfl, hg, -, h⟩ := greedy_isSome.1 h
        split at h
        · rename_i hopen
          obtain ⟨r, rfl⟩ := List.isPrefixOf_iff_prefix.1 hopen
          exact ⟨_, ⟨g, hg, rfl⟩, r, by simp⟩
        · cases h
      · cases h
    · cases h
  · rintro ⟨hedge, _, ⟨g, hg, rfl⟩, r, rfl⟩
    rw [if_pos hedge, if_pos (by simp [startsWith])]
    refine greedy_isSome.2 ⟨g, '(' :: r, by simp, hg, Nat.zero_le _, ?_⟩
    rw [if_pos (by simp [startsWith])]
    rfl

theorem keyed_ifHead : Keyed ifHead IfFront where
  fronted := fronted_ifHead
  starts := by
    rintro _ ⟨g, hg, rfl⟩
    exact ⟨'i', _, rfl, by decide⟩
  noSign := by
    rintro _ ⟨g, hg, rfl⟩ d hd hmem
    obtain ⟨hblank, hname, hopen⟩ := of_sign d hd
    simp only [List.mem_append, List.mem_singleton] at hmem
    rcases hmem with hmem | hmem | hmem
    · exact absurd (nameChars_keyword "if" (by simp) d hmem) (by simp [hname])
    · exact notMem_of_blank hg hblank hmem
    · exact hopen hmem
  noName := by
    rintro _ ⟨g, hg, rfl⟩ x blanks hx hblanks hin
    have hmem : '(' ∈ x ++ blanks := hin.subset (by simp)
    rcases List.mem_append.1 hmem with hmem | hmem
    · exact absurd (isIdentifierChar_of_mem hx hmem) (by decide)
    · exact notMem_of_blank hblanks (by decide) hmem

theorem misses_ifHead {before : Option Char} {w rest : List Char} (hw : 'i' ∉ w) :
    ifHead.Misses before w rest := by
  refine fronted_ifHead.misses_of_head ?_
  rintro _ ⟨g, hg, rfl⟩
  exact ⟨'i', _, rfl, hw⟩

/-- An `if` is found where a word may start, up to its bracket. -/
theorem matchAt?_ifHead {before : Option Char} (hb : before.any isWord = false) (i : Nat)
    {g : List Char} (hg : Blank g) (r : List Char) :
    ifHead.matchAt? ⟨before, i, "if".toList ++ (g ++ '(' :: r)⟩ = some ⟨i, i + (g.length + 3), []⟩ := by
  have hedge : Cursor.atWordEdge ⟨before, i, "if".toList ++ (g ++ '(' :: r)⟩ = true := by
    rw [Cursor.atWordEdge, hb]
    rfl
  have hrun : ifHead.matchAt? ⟨before, i, "if".toList ++ (g ++ '(' :: r)⟩ =
      if Cursor.atWordEdge ⟨before, i, "if".toList ++ (g ++ '(' :: r)⟩ = true then
        (Pattern.many 0 isBlank).run ⟨some 'f', i + 1 + 1, g ++ '(' :: r⟩ [] fun q caps =>
          (Pattern.lit "(").run q caps fun q caps => some ⟨i, q.index, caps⟩
      else none := rfl
  rw [hrun, if_pos hedge]
  refine run_blanks hg (by simp; decide) (Nat.zero_le _) ?_
  rw [Pattern.run_lit, if_pos (by simp [startsWith])]
  have hlen : "(".toList.length = 1 := rfl
  have hstop : i + 1 + 1 + g.length + "(".toList.length = i + (g.length + 3) := by omega
  rw [hstop]

/-! ### Declarations -/

def DeclarationFront (a : List Char) : Prop :=
  ∃ kw ∈ ["const", "let", "var"], ∃ g c,
    Blank g ∧ g ≠ [] ∧ isIdentifierStart c = true ∧ a = kw.toList ++ (g ++ [c])

/-- One of several keywords matches where some word of them stands in front of what follows. -/
theorem keywords_isSome {ws : List String} {c : Cursor} {caps : Captures}
    {next : Cursor → Captures → Option α} :
    ((Pattern.anyOf (ws.map .lit)).run c caps next).isSome = true ↔
      ∃ w ∈ ws, startsWith c.rest w.toList = true ∧
        (next ⟨w.toList.getLast?.or c.before, c.index + w.toList.length,
          c.rest.drop w.toList.length⟩ caps).isSome = true := by
  have hlit (w : String) : ((Pattern.lit w).run c caps next).isSome = true ↔
      startsWith c.rest w.toList = true ∧
        (next ⟨w.toList.getLast?.or c.before, c.index + w.toList.length,
          c.rest.drop w.toList.length⟩ caps).isSome = true := by
    rw [Pattern.run_lit]
    split <;> simp [*]
  induction ws with
  | nil =>
    simp only [List.map_nil, Pattern.anyOf, Pattern.run, List.not_mem_nil, false_and, exists_false,
      iff_false]
    split <;> simp
  | cons w ws ih =>
    cases ws with
    | nil => simpa [Pattern.anyOf] using hlit w
    | cons w' ws =>
      have hstep : ((Pattern.anyOf ((w :: w' :: ws).map .lit)).run c caps next).isSome = true ↔
          ((Pattern.lit w).run c caps next).isSome = true ∨
            ((Pattern.anyOf ((w' :: ws).map .lit)).run c caps next).isSome = true := by
        simp only [List.map_cons, Pattern.anyOf, Pattern.run]
        cases (Pattern.lit w).run c caps next <;> simp
      rw [hstep, hlit]
      simp only [List.mem_cons, exists_eq_or_imp] at ih ⊢
      exact or_congr Iff.rfl ih

def declared : Pattern :=
  .seq (.seq (.seq (.seq .someBlanks (.group 2 .identifier)) .blanks)
    (.opt (.lit ":" ++ .many 1 fun c => c != '=' && c != ';'))) (.opt (.group 3 (.lit "=")))

/-- A declared name needs blanks and a letter behind the keyword. -/
theorem declared_isSome {c : Cursor} {caps : Captures} {next : Cursor → Captures → Option α}
    (hn : ∀ q caps, (next q caps).isSome = true) :
    (declared.run c caps next).isSome = true ↔
      ∃ g d r, c.rest = g ++ d :: r ∧ Blank g ∧ g ≠ [] ∧ isIdentifierStart d = true := by
  have hrun : declared.run c caps next = greedy isBlank (fun q =>
      (Pattern.one isIdentifierStart).run q caps fun r caps =>
        (Pattern.many 0 fun c => isWord c || c == '$').run r caps fun r caps =>
          (Pattern.many 0 isBlank).run r ((2, q.index, r.index) :: caps) fun r caps =>
            (Pattern.opt _).run r caps fun r caps => (Pattern.opt _).run r caps next)
      1 c.before c.index c.rest := rfl
  rw [hrun]
  constructor
  · intro h
    obtain ⟨g, r, hr, hg, hlen, h⟩ := greedy_isSome.1 h
    cases r with
    | nil => cases h
    | cons d r =>
      rw [run_one_cons] at h
      split at h
      · exact ⟨g, d, r, hr, hg, List.ne_nil_of_length_pos hlen, ‹_›⟩
      · cases h
  · rintro ⟨g, d, r, hr, hg, hne, hd⟩
    refine greedy_isSome.2 ⟨g, d :: r, hr, hg, List.length_pos_iff.2 hne, ?_⟩
    rw [run_one_cons, if_pos hd]
    exact many_isSome (many_isSome (opt_isSome (opt_isSome (hn _ _))))

theorem fronted_declaration : Fronted declaration DeclarationFront := by
  intro before i t
  have hrun : declaration.matchAt? ⟨before, i, t⟩ =
      if Cursor.atWordEdge ⟨before, i, t⟩ = true then
        (Pattern.anyOf (["const", "let", "var"].map .lit)).run ⟨before, i, t⟩ [] fun q caps =>
          declared.run q caps fun q caps => some ⟨i, q.index, caps⟩
      else none := rfl
  rw [hrun]
  split
  · rename_i hedge
    have hsome (q : Cursor) (caps : Captures) :
        (some (⟨i, q.index, caps⟩ : Match)).isSome = true := rfl
    simp only [keywords_isSome, declared_isSome hsome, hedge, true_and]
    constructor
    · rintro ⟨kw, hkw, hstarts, g, d, r, hr, hg, hne, hd⟩
      obtain ⟨r', rfl⟩ := List.isPrefixOf_iff_prefix.1 hstarts
      rw [List.drop_left] at hr
      subst hr
      exact ⟨_, ⟨kw, hkw, g, d, hg, hne, hd, rfl⟩, r, by simp⟩
    · rintro ⟨_, ⟨kw, hkw, g, d, hg, hne, hd, rfl⟩, r, rfl⟩
      exact ⟨kw, hkw, by simp [startsWith], g, d, r, by simp, hg, hne, hd⟩
  · rename_i hedge
    simp [hedge]

theorem keyed_declaration : Keyed declaration DeclarationFront where
  fronted := fronted_declaration
  starts := by
    rintro _ ⟨kw, hkw, g, c, hg, hne, hc, rfl⟩
    simp only [List.mem_cons, List.not_mem_nil, or_false] at hkw
    rcases hkw with rfl | rfl | rfl
    · exact ⟨'c', _, rfl, by decide⟩
    · exact ⟨'l', _, rfl, by decide⟩
    · exact ⟨'v', _, rfl, by decide⟩
  noSign := by
    rintro _ ⟨kw, hkw, g, c, hg, hne, hc, rfl⟩ d hd hmem
    obtain ⟨hblank, hname, -⟩ := of_sign d hd
    simp only [List.mem_append, List.mem_singleton] at hmem
    rcases hmem with hmem | hmem | rfl
    · exact absurd (nameChars_keyword kw (List.mem_cons_of_mem _ hkw) d hmem) (by simp [hname])
    · exact notMem_of_blank hg hblank hmem
    · exact absurd (isIdentifierChar_of_start hc) (by simp [hname])
  noName := by
    rintro _ ⟨kw, hkw, g, c, hg, hne, hc, rfl⟩ x blanks hx hblanks ⟨u, r, he⟩
    obtain ⟨b, g, rfl⟩ := List.exists_cons_of_ne_nil hne
    have hb : isBlank b = true := hg b (by simp)
    have hstart := not_blank_of_isIdentifierChar (isIdentifierChar_of_start hc)
    have he : (u ++ kw.toList) ++ b :: (g ++ c :: r) = x ++ blanks := by simpa using he
    -- behind the first blank the name is over, and no other name begins
    rcases List.append_eq_append_iff.1 he with ⟨q, rfl, hq⟩ | ⟨q, -, rfl⟩
    · cases q with
      | nil =>
        rw [List.nil_append] at hq
        exact notMem_of_blank hblanks hstart (hq ▸ by simp)
      | cons d q =>
        have hd : b = d := (List.cons.inj hq).1
        have hmem := isIdentifierChar_of_mem hx (c := b) (by simp [hd])
        exact absurd (not_blank_of_isIdentifierChar hmem) (by simp [hb])
    · exact notMem_of_blank hblanks hstart (by simp)

/-- A declaration begins with the first letter of a keyword. -/
theorem misses_declaration {before : Option Char} {w rest : List Char}
    (hw : ∀ c ∈ ['c', 'l', 'v'], c ∉ w) : declaration.Misses before w rest := by
  refine fronted_declaration.misses_of_head ?_
  rintro _ ⟨kw, hkw, g, d, -, -, -, rfl⟩
  simp only [List.mem_cons, List.not_mem_nil, or_false] at hkw
  rcases hkw with rfl | rfl | rfl
  · exact ⟨'c', _, rfl, hw 'c' (by simp)⟩
  · exact ⟨'l', _, rfl, hw 'l' (by simp)⟩
  · exact ⟨'v', _, rfl, hw 'v' (by simp)⟩

/-- No declaration begins in an `else`. -/
theorem misses_else {before : Option Char} {rest : List Char} :
    declaration.Misses before "else".toList rest := by
  have hl {before : Option Char} {rest : List Char} :
      declaration.Misses before ['l'] ('s' :: rest) := by
    rintro u v i he hv
    obtain ⟨rfl, rfl⟩ : u = [] ∧ v = ['l'] := by
      cases u with
      | nil => exact ⟨rfl, he.symm⟩
      | cons c u => exact absurd (List.append_eq_nil_iff.1 (List.cons.inj he).2.symm).2 hv
    refine fronted_declaration.matchAt?_eq_none ?_
    rintro _ ⟨kw, hkw, g, d, -, -, -, rfl⟩ hpre
    simp only [List.mem_cons, List.not_mem_nil, or_false] at hkw
    rcases hkw with rfl | rfl | rfl <;> simp at hpre
  have hfirst {rest : List Char} : declaration.Misses before ['e'] rest :=
    misses_declaration (by decide)
  have hback {before : Option Char} : declaration.Misses before ['s', 'e'] rest :=
    misses_declaration (by decide)
  exact hfirst.append (hl.append hback)

/-- A declaration is read up to the sign behind the name. -/
theorem run_declared {gap name blanks : List Char} {d : Char} (hgap : Blank gap) (hne : gap ≠ [])
    (hname : isIdentifier name = true) (hblanks : Blank blanks) (hd : d = '=' ∨ d = ';')
    {i : Nat} {before : Option Char} {next : Cursor → Captures → Option α} {found : α}
    (r : List Char)
    (hn : (Pattern.opt (.group 3 (.lit "="))).run
      ⟨blanks.getLast?.or name.getLast?, i + gap.length + name.length + blanks.length, d :: r⟩
      [(2, i + gap.length, i + gap.length + name.length)] next = some found) :
    declared.run ⟨before, i, gap ++ (name ++ (blanks ++ d :: r))⟩ [] next = some found := by
  have hsign : isBlank d = false ∧ (isWord d || d == '$') = false ∧ d ≠ ':' := by
    rcases hd with rfl | rfl <;> decide
  have hrun : declared.run ⟨before, i, gap ++ (name ++ (blanks ++ d :: r))⟩ [] next =
      (Pattern.many 1 isBlank).run ⟨before, i, gap ++ (name ++ (blanks ++ d :: r))⟩ [] fun q caps =>
        Pattern.identifier.run q caps fun r caps =>
          (Pattern.many 0 isBlank).run r ((2, q.index, r.index) :: caps) fun r caps =>
            (Pattern.opt (.lit ":" ++ .many 1 fun c => c != '=' && c != ';')).run r caps
              fun r caps => (Pattern.opt (.group 3 (.lit "="))).run r caps next := rfl
  have hfirst : ∀ c ∈ (name ++ (blanks ++ d :: r)).head?, isBlank c = false := by
    intro c hc
    cases name with
    | nil => cases hname
    | cons e t =>
      obtain rfl : e = c := by simpa using hc
      exact not_blank_of_isIdentifierChar (isIdentifierChar_of_mem hname (by simp))
  rw [hrun]
  refine run_blanks hgap hfirst (List.length_pos_iff.2 hne) ?_
  refine run_identifier (isName_of_isIdentifier hname) (not_word_after hblanks hsign.2.1 r) ?_
  refine run_blanks hblanks (by simpa using hsign.1) (Nat.zero_le _) ?_
  rw [Pattern.run]
  have htype : (Pattern.lit ":" ++ .many 1 fun c => c != '=' && c != ';' : Pattern).run
      ⟨blanks.getLast?.or name.getLast?, i + gap.length + name.length + blanks.length, d :: r⟩
      [(2, i + gap.length, i + gap.length + name.length)] (fun r caps =>
        (Pattern.opt (.group 3 (.lit "="))).run r caps next) = none := by
    show (Pattern.seq (.lit ":") _).run _ _ _ = none
    rw [Pattern.run, Pattern.run_lit, if_neg]
    rw [Bool.not_eq_true]
    exact startsWith_of_head (c := ':') (by simpa using hsign.2.2) []
  rw [htype]
  exact hn

/-- What follows the keyword decides about a declaration. -/
theorem matchAt?_declaration {before : Option Char} (hb : before.any isWord = false) (i : Nat)
    (t : List Char) {m : Match}
    (h : declared.run ⟨some 't', i + 3, t⟩ [] (fun q caps => some ⟨i, q.index, caps⟩) = some m) :
    declaration.matchAt? ⟨before, i, "let".toList ++ t⟩ = some m := by
  have hedge : Cursor.atWordEdge ⟨before, i, "let".toList ++ t⟩ = true := by
    rw [Cursor.atWordEdge, hb]
    rfl
  have hrun : declaration.matchAt? ⟨before, i, "let".toList ++ t⟩ =
      if Cursor.atWordEdge ⟨before, i, "let".toList ++ t⟩ = true then
        (Pattern.alt (.lit "const") (.alt (.lit "let") (.lit "var"))).run
          ⟨before, i, "let".toList ++ t⟩ [] fun q caps =>
            declared.run q caps fun q caps => some ⟨i, q.index, caps⟩
      else none := rfl
  have hconst : startsWith ("let".toList ++ t) "const".toList = false := rfl
  have hlet : startsWith ("let".toList ++ t) "let".toList = true := startsWith_append_self _ t
  simp only [hrun, if_pos hedge, Pattern.run, Pattern.run_lit, hconst, hlet, if_true, List.drop_left]
  simp [h]

variable {gap name blanks : List Char} {before : Option Char}

/-- A declaration without a value. -/
theorem matchAt?_bare (hb : before.any isWord = false) (hgap : Blank gap) (hne : gap ≠ [])
    (hname : isIdentifier name = true) (hblanks : Blank blanks) (i : Nat) (r : List Char) :
    declaration.matchAt? ⟨before, i, "let".toList ++ (gap ++ (name ++ (blanks ++ ';' :: r)))⟩ =
      some ⟨i, i + 3 + gap.length + name.length + blanks.length,
        [(2, i + 3 + gap.length, i + 3 + gap.length + name.length)]⟩ := by
  refine matchAt?_declaration hb i _ (run_declared hgap hne hname hblanks (.inr rfl) r ?_)
  rfl

/-- A declaration with a value. -/
theorem matchAt?_valued (hb : before.any isWord = false) (hgap : Blank gap) (hne : gap ≠ [])
    (hname : isIdentifier name = true) (hblanks : Blank blanks) (i : Nat) (r : List Char) :
    declaration.matchAt? ⟨before, i, "let".toList ++ (gap ++ (name ++ (blanks ++ '=' :: r)))⟩ =
      some ⟨i, i + 3 + gap.length + name.length + blanks.length + 1,
        [(3, i + 3 + gap.length + name.length + blanks.length,
            i + 3 + gap.length + name.length + blanks.length + 1),
          (2, i + 3 + gap.length, i + 3 + gap.length + name.length)]⟩ := by
  refine matchAt?_declaration hb i _ (run_declared hgap hne hname hblanks (.inl rfl) r ?_)
  rfl

/-! ### Assignments -/

/-- An assignment is found at its name, up to the blank behind the sign. -/
theorem matchAt?_assignment (hname : isIdentifier name = true) (hblanks : Blank blanks) {c : Char}
    (hc : isBlank c = true) (i : Nat) (r : List Char) :
    assignment.matchAt? ⟨before, i, name ++ (blanks ++ '=' :: c :: r)⟩ =
      some ⟨i, i + name.length + blanks.length + 2, [(1, i, i + name.length)]⟩ := by
  have hrun : assignment.matchAt? ⟨before, i, name ++ (blanks ++ '=' :: c :: r)⟩ =
      Pattern.identifier.run ⟨before, i, name ++ (blanks ++ '=' :: c :: r)⟩ [] fun q caps =>
        (Pattern.many 0 isBlank).run q ((1, i, q.index) :: caps) fun q caps =>
          (Pattern.lit "=").run q caps fun q caps =>
            (Pattern.one fun c => c != '=' && c != '>').run q caps fun q caps =>
              some ⟨i, q.index, caps⟩ := rfl
  have hsign : (c != '=' && c != '>') = true := by
    simp [ne_of_isBlank hc (d := '=') (by decide), ne_of_isBlank hc (d := '>') (by decide)]
  rw [hrun]
  refine run_identifier (isName_of_isIdentifier hname) (not_word_after hblanks (by decide) _) ?_
  refine run_blanks hblanks (by simp; decide) (Nat.zero_le _) ?_
  rw [Pattern.run_lit, if_pos (by simp [startsWith])]
  show (if (c != '=' && c != '>') = true then _ else none) = _
  rw [if_pos hsign]
  rfl

/-- An assignment begins with a name. -/
theorem misses_assignment {w rest : List Char} (hw : ∀ c ∈ w, isIdentifierStart c = false) :
    assignment.Misses before w rest := by
  rintro u v i rfl hv
  obtain ⟨c, v, rfl⟩ := List.exists_cons_of_ne_nil hv
  have hc : isIdentifierStart c = false := hw c (by simp)
  have hrun : assignment.matchAt? ⟨u.getLast?.or before, i, c :: v ++ rest⟩ =
      if isIdentifierStart c = true then _ else none := rfl
  rw [hrun, hc]
  rfl

/-! ### What hangs on a condition -/

theorem searchFrom_elseHead (before : Option Char) (i : Nat) (t : List Char) :
    elseHead.searchFrom before (i + 1) t = none := by
  have hnone (before : Option Char) (i : Nat) (t : List Char) :
      elseHead.matchAt? ⟨before, i + 1, t⟩ = none := rfl
  induction t generalizing before i with
  | nil => exact hnone before i []
  | cons c t ih => rw [Pattern.searchFrom, hnone, ih]

/-- An `else` stands at the front or is not found. -/
theorem find?_elseHead (t : List Char) :
    elseHead.find? t = elseHead.matchAt? (Cursor.ofText t) := by
  cases t with
  | nil => rfl
  | cons c t =>
    rw [Pattern.find?, Pattern.searchFrom, searchFrom_elseHead]
    cases h : elseHead.matchAt? ⟨none, 0, c :: t⟩ <;> exact h.symm

/-- An `else` is found behind blanks, with an edge of a word behind it. -/
theorem find?_elseHead_eq_some {g h r : List Char} (hg : Blank g) (hh : Blank h)
    (hedge : ∀ c ∈ (h ++ r).head?, isWord c = false) (hr : ∀ c ∈ r.head?, isBlank c = false) :
    elseHead.find? (g ++ ("else".toList ++ (h ++ r))) =
      some ⟨0, g.length + (h.length + 4), []⟩ := by
  have hrun : elseHead.matchAt? (Cursor.ofText (g ++ ("else".toList ++ (h ++ r)))) =
      (Pattern.many 0 isBlank).run (Cursor.ofText (g ++ ("else".toList ++ (h ++ r)))) []
        fun q caps => (Pattern.lit "else").run q caps fun q caps =>
          if q.atWordEdge = true then
            (Pattern.many 0 isBlank).run q caps fun q caps => some ⟨0, q.index, caps⟩
          else none := rfl
  rw [find?_elseHead, hrun]
  refine run_blanks hg (by simp; decide) (Nat.zero_le _) ?_
  rw [Pattern.run_lit, if_pos (startsWith_append_self _ _), List.drop_left, if_pos]
  · refine run_blanks hh hr (Nat.zero_le _) ?_
    have hlen : "else".toList.length = 4 := rfl
    have hstop : 0 + g.length + "else".toList.length + h.length = g.length + (h.length + 4) := by
      omega
    rw [hstop]
  · have hnone : (h ++ r).head?.any isWord = false := by
      cases hc : (h ++ r).head? with
      | none => rfl
      | some c => exact hedge c hc
    rw [Cursor.atWordEdge, hnone]
    rfl

/-- Where what follows the blanks does not begin with an `e`, no `else` is found. -/
theorem find?_elseHead_eq_none {g r : List Char} (hg : Blank g)
    (hr : ∀ c ∈ r.head?, isBlank c = false ∧ c ≠ 'e') : elseHead.find? (g ++ r) = none := by
  rw [find?_elseHead, ← Option.not_isSome_iff_eq_none]
  intro hs
  obtain ⟨w, rest, ht, hw, -, hn⟩ := greedy_isSome.1 hs
  simp only [Pattern.run_lit] at hn
  split at hn
  · rename_i hstarts
    obtain ⟨q, rfl⟩ := List.isPrefixOf_iff_prefix.1 hstarts
    have hword : g ++ r = w ++ 'e' :: ("lse".toList ++ q) := ht
    have hleft := trimStart_append_cons hw (c := 'e') (by decide) ("lse".toList ++ q)
    rw [← hword] at hleft
    cases r with
    | nil =>
      rw [List.append_nil, hg.trimStart] at hleft
      cases hleft
    | cons c r =>
      obtain ⟨hc, he⟩ := hr c rfl
      rw [trimStart_append_cons hg hc] at hleft
      exact he (List.cons.inj hleft).1
  · cases hn

end JsxToJinja.Bindings
