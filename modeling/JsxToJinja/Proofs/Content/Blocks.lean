import JsxToJinja.Proofs.Content.Reassignment
import JsxToJinja.Proofs.Content.Statements

/-! Reading of blocks that assign a variable: the elements in their text are masked, an assignment is
found where it stands, and a condition changes what the variable stands for. -/
namespace JsxToJinja
open JsxToJinja.Text JsxToJinja.Code JsxToJinja.Markup

/-! ### Masking -/

/-- A text that masking blanks the elements of, and nothing else. -/
def Written (f : (Value → List Char) → List Char) : Prop :=
  ∃ ps, ∀ write, f write = printAll write ps

theorem Written.append {f g : (Value → List Char) → List Char} (hf : Written f) (hg : Written g) :
    Written fun write => f write ++ g write := by
  obtain ⟨ps, hps⟩ := hf
  obtain ⟨qs, hqs⟩ := hg
  exact ⟨ps ++ qs, fun write => by rw [printAll_append, ← hps, ← hqs]⟩

theorem written_quiet {w : List Char} (h : Quiet w) : Written fun _ => w :=
  ⟨[.code w h], fun write => by simp [printAll, Piece.print]⟩

theorem written_value (gap : Gap) (v : Value) :
    Written fun write => '=' :: (gap.chars ++ write v) :=
  ⟨[.value gap.chars gap.blank v], fun write => by simp [printAll, Piece.print]⟩

theorem Written.mask_eq {f : (Value → List Char) → List Char} (h : Written f) :
    mask (f Value.text) = f Value.masked := by
  obtain ⟨ps, hps⟩ := h
  rw [hps, hps, mask_printAll]

theorem Written.length_eq {f : (Value → List Char) → List Char} (h : Written f) :
    (f Value.masked).length = (f Value.text).length := by
  obtain ⟨ps, hps⟩ := h
  rw [hps, hps, length_printAll]

/-! Gaps, names and signs are code in which no element begins. -/

theorem Gap.quiet (g : Gap) : Quiet g.chars := by
  apply quiet_of_plain
  intro c hc
  have hb := g.blank c hc
  refine ⟨isQuote_eq_false (isOrdinary_of_isBlank hb), ?_⟩
  rintro rfl
  exact absurd hb (by decide)

theorem quiet_name {x : List Char} (hx : isIdentifier x = true) : Quiet x := by
  apply quiet_of_plain
  intro c hc
  have hc := isIdentifierChar_of_mem hx hc
  exact ⟨isQuote_eq_false (isOrdinary_of_isIdentifierChar hc),
    ne_of_isIdentifierChar hc (by decide)⟩

theorem quiet_sign {c : Char} (h : isQuote c = false ∧ c ≠ '<') {w : List Char} (hw : Quiet w) :
    Quiet (c :: w) :=
  Quiet.append (a := [c]) (quiet_of_plain (by simpa using h)) hw

/-- No tag begins in a condition, nor at its closing bracket. -/
theorem Guard.quiet (g : Guard) : Quiet (g.code ++ [')']) := by
  refine ⟨(unquoted_of_sealed g.sealed).append (.char (by decide) .nil), ?_⟩
  intro u v rest he hv
  rcases List.append_eq_append_iff.1 he with ⟨m, hu, hm⟩ | ⟨m, hm, rfl⟩
  · -- only the bracket is left
    obtain ⟨c, v, rfl⟩ := List.exists_cons_of_ne_nil hv
    have hc : c = ')' := by
      have : c ∈ [')'] := hm ▸ (by simp)
      simpa using this
    exact opensTag_of_ne (by simp [hc]) _
  · have hnone := g.noTag u m hm
    match m with
    | [] => rfl
    | [c] =>
      by_cases hc : c = '<'
      · subst hc
        rfl
      · exact opensTag_of_ne hc _
    | c :: d :: m =>
      by_cases hc : c = '<'
      · subst hc
        exact hnone
      · exact opensTag_of_ne hc _

theorem written_else (before after : Gap) {f : (Value → List Char) → List Char} (hf : Written f) :
    Written fun write => before.chars ++ ("else".toList ++ (after.chars ++ f write)) :=
  (written_quiet before.quiet).append
    ((written_quiet (quiet_of_plain (by decide))).append ((written_quiet after.quiet).append hf))

section
variable {x : List Char} (hx : isIdentifier x = true)
include hx

theorem Block.written_inner (b : Block) : Written (b.inner x) := by
  cases ha : b.assigned with
  | none =>
    have hnil : b.inner x = fun _ => [] := by
      funext write
      rw [Block.inner, ha]
      rfl
    rw [hnil]
    exact written_quiet (quiet_of_plain (by simp))
  | some a =>
    have hprint : b.inner x = fun write => (x ++ a.before.chars) ++
        (('=' :: (a.after.chars ++ write a.value)) ++ (a.close.chars ++ ';' :: a.trail.chars)) := by
      funext write
      simp [Block.inner, ha, Assigned.print]
    rw [hprint]
    have hend : Quiet (a.close.chars ++ ';' :: a.trail.chars) :=
      a.close.quiet.append (quiet_sign (by decide) a.trail.quiet)
    exact (written_quiet ((quiet_name hx).append a.before.quiet)).append
      ((written_value a.after a.value).append (written_quiet hend))

theorem Block.written (b : Block) : Written (b.print x) := by
  have hopen : Quiet ('\x7b' :: b.lead.chars) := quiet_sign (by decide) b.lead.quiet
  have hclose : Quiet ['\x7d'] := quiet_of_plain (by decide)
  exact (written_quiet hopen).append ((b.written_inner hx).append (written_quiet hclose))

/-- An arm differs from its masked copy in the elements alone. -/
theorem Arm.written (a : Arm) : Written (a.print x) := by
  have hhead : Quiet ("if".toList ++ (a.gap.chars ++ ['('])) :=
    (quiet_of_plain (by decide)).append (a.gap.quiet.append (quiet_of_plain (by decide)))
  have hprint : a.print x = fun write => ("if".toList ++ (a.gap.chars ++ ['('])) ++
      ((a.guard.code ++ [')']) ++ (a.lead.chars ++ a.block.print x write)) := by
    funext write
    simp [Arm.print]
  rw [hprint]
  exact (written_quiet hhead).append ((written_quiet a.guard.quiet).append
    ((written_quiet a.lead.quiet).append (a.block.written hx)))

theorem Chain.written (k : Chain) : Written (k.print x) := by
  induction k with
  | last a => exact a.written hx
  | otherwise a before after b =>
    exact (a.written hx).append (written_else before after (b.written hx))
  | elseIf a before after apart rest ih => exact (a.written hx).append (written_else before after ih)

end

theorem written_chainsText {x : List Char} (hx : isIdentifier x = true) (ks : List (Gap × Chain)) :
    Written fun write => chainsText x write ks := by
  simp only [chainsText]
  induction ks with
  | nil => exact written_quiet (quiet_of_plain (by simp))
  | cons k ks ih =>
    simp only [List.flatMap_cons]
    exact ((written_quiet k.1.quiet).append (k.2.written hx)).append ih

theorem written_initialText (initial : Option Initial) :
    Written fun write => initialText write initial := by
  cases initial with
  | none => exact written_quiet (quiet_of_plain (by simp))
  | some a =>
    have hprint : (fun write => initialText write (some a)) =
        fun write => ('=' :: (a.after.chars ++ write a.value)) ++ a.close.chars := by
      funext write
      simp [initialText]
    rw [hprint]
    exact (written_value a.after a.value).append (written_quiet a.close.quiet)

theorem Script.written_head (s : Script) : Written fun write => s.head write :=
  (written_quiet s.lead.quiet).append ((written_quiet (quiet_of_plain (by decide))).append
    ((written_quiet s.gap.quiet).append ((written_quiet (quiet_name s.isName)).append
      ((written_quiet s.before.quiet).append ((written_initialText s.initial).append
        (written_quiet (quiet_of_plain (by decide))))))))

theorem Script.written (s : Script) : Written fun write => s.print write :=
  s.written_head.append ((written_chainsText s.isName s.chains).append (written_quiet s.trail.quiet))

/-! ### Places in the statements -/

namespace Bindings

/-- What is left of the statements from a position on, and of their masked copy. -/
structure Preamble.Stands (p : Preamble) (i : Nat) (t m : List Char) : Prop where
  text : p.text.drop i = t
  masked : p.masked.drop i = m

namespace Preamble.Stands

variable {p : Preamble} {i : Nat} {t m : List Char}

theorem skip {u u' : List Char} (h : p.Stands i (u ++ t) (u' ++ m)) (hl : u'.length = u.length) :
    p.Stands (i + u.length) t m := by
  refine ⟨?_, ?_⟩
  · rw [← List.drop_drop, h.text, List.drop_left]
  · rw [← List.drop_drop, h.masked, ← hl, List.drop_left]

theorem skip_cons {c : Char} (h : p.Stands i (c :: t) (c :: m)) : p.Stands (i + 1) t m :=
  Preamble.Stands.skip (u := [c]) ⟨h.text, h.masked⟩ rfl

theorem slice_eq {w : List Char} (h : p.Stands i (w ++ t) m) :
    slice p.text i (i + w.length) = w := by
  rw [slice, List.drop_take, h.text, Nat.add_sub_cancel_left, List.take_left]

theorem slice_masked {w : List Char} (h : p.Stands i t (w ++ m)) :
    slice p.masked i (i + w.length) = w := by
  rw [slice, List.drop_take, h.masked, Nat.add_sub_cancel_left, List.take_left]

end Preamble.Stands

/-! ### Values -/

/-- Behind blanks a statement ends at its semicolon. -/
theorem statementStop_go {masked w : List Char} (hw : Blank w) (i d k : Nat) (r : List Char) :
    Content.statementStop.go masked i 0 (marksFrom .code d k (w ++ ';' :: r)) =
      i + (k + w.length) := by
  induction w generalizing k with
  | nil =>
    rw [List.nil_append, marksFrom_ordinary (by decide)]
    rfl
  | cons c w ih =>
    have hc : isBlank c = true := hw c (by simp)
    have hordinary := isOrdinary_of_isBlank hc
    have hbrackets := hordinary
    simp only [isOrdinary, Bool.and_eq_true, Bool.not_eq_true'] at hbrackets
    have hsemicolon : (c == ';') = false := by simpa using ne_of_isBlank hc (by decide)
    have hl : k + (c :: w).length = k + 1 + w.length := by
      simp only [List.length_cons]
      omega
    rw [List.cons_append, marksFrom_ordinary hordinary, Content.statementStop.go]
    simp only [hbrackets, hsemicolon, Bool.false_and, Bool.false_eq_true, if_false]
    rw [ih (fun b hb => hw b (by simp [hb])), hl]

/-- A statement ends at the first semicolon behind blanks. -/
theorem statementStop_eq {masked w r : List Char} {i : Nat} (hw : Blank w)
    (h : masked.drop i = w ++ ';' :: r) : Content.statementStop masked i = i + w.length := by
  rw [Content.statementStop, h, marks, statementStop_go hw, Nat.zero_add]

theorem value_valueOf (v : Value) : (valueOf v.text).value = v.contents.head? := by
  obtain ⟨t, ht⟩ := v.cons
  have hrenders : renders v.text = true := by simp [renders, ht]
  have hne : v.text.isEmpty = false := by simp [ht]
  obtain ⟨c, hc, -⟩ := v.contents_eq
  have hvalue : (Content.ofOperand Content.ofExpression v.text).value = [c] := hc
  simp only [valueOf, v.stripOuterParens_text, hne, v.not_nothing, hrenders, Bool.not_true, Bool.or_false,
    Bool.false_eq_true, if_false, Reviewed.value_bind, hvalue, hc]
  rfl

/-- An element between gaps is the value of the statement it stands in. -/
theorem Preamble.Stands.value_at {p : Preamble} {i : Nat} {t m : List Char} {after close : Gap}
    {v : Value} (h : p.Stands i (after.chars ++ (v.text ++ (close.chars ++ ';' :: t)))
      (after.chars ++ (v.masked ++ (close.chars ++ ';' :: m)))) :
    Content.statementStop p.masked i =
        i + (after.chars ++ (v.text ++ close.chars)).length ∧
      (valueOf (trim (slice p.text i (i + (after.chars ++ (v.text ++ close.chars)).length)))).value =
        v.contents.head? := by
  have hblank : Blank (after.chars ++ (v.masked ++ close.chars)) :=
    after.blank.append (v.blank_masked.append close.blank)
  have hstop := statementStop_eq hblank (i := i) (r := m) (by simpa using h.masked)
  have hslice := Preamble.Stands.slice_eq (w := after.chars ++ (v.text ++ close.chars))
    (t := ';' :: t) ⟨by simpa using h.text, h.masked⟩
  refine ⟨?_, ?_⟩
  · rw [hstop]
    simp [v.length_masked]
  · rw [hslice, trim_pad after.blank v.trimmed_text close.blank, value_valueOf]

/-! ### Blocks -/

def entries (x : List Char) (b : Block) : List (String × Content) :=
  (b.value?.bind fun v => v.contents.head?).toList.map fun c => (String.ofList x, c)

theorem sealed_gap (g : Gap) : Sealed [] g.chars := sealed_of_blank g.blank (by simp)

/-- The masked inside of a block is properly nested. -/
theorem sealed_inner {x : List Char} (hx : isIdentifier x = true) (b : Block) :
    Sealed [] (b.lead.chars ++ b.inner x Value.masked) := by
  refine (sealed_gap b.lead).append ?_
  rw [Block.inner]
  cases b.assigned with
  | none => exact .nil
  | some a =>
    have hname : Sealed [] x :=
      sealed_of_nameChars (fun c hc => isIdentifierChar_of_mem hx hc) (by simp)
    have hvalue : Sealed [] a.value.masked := sealed_of_blank a.value.blank_masked (by simp)
    exact hname.append ((sealed_gap _).append (.plain (by simp) (by decide) ((sealed_gap _).append
      (hvalue.append ((sealed_gap _).append (.plain (by simp) (by decide) (sealed_gap _)))))))

/-- A block ends at its own bracket. -/
theorem bodyStop_block {x : List Char} (hx : isIdentifier x = true) (b : Block) {p : Preamble}
    {i : Nat} {t m : List Char} (h : p.Stands i t (b.print x Value.masked ++ m)) :
    bodyStop p i = i + (b.lead.chars ++ b.inner x Value.masked).length + 1 := by
  have hmasked : p.masked.drop i =
      '\x7b' :: ((b.lead.chars ++ b.inner x Value.masked) ++ '\x7d' :: m) := by
    rw [h.masked]
    simp [Block.print]
  have hlength := balancedLength?_group (o := '\x7b') rfl (sealed_inner hx b) m
  have hstarts : startsWith (p.masked.drop i) ['\x7b'] = true := by simp [hmasked, startsWith]
  rw [bodyStop, if_pos hstarts, balancedEnd?, hmasked, hlength]
  rfl

/-- No name begins in blanks, nor at a sign before them. -/
theorem not_start_of_mem {d : Char} (hd : isIdentifierStart d = false) {g : List Char}
    (hg : Blank g) : ∀ c ∈ d :: g, isIdentifierStart c = false := by
  intro c hc
  rcases List.mem_cons.1 hc with rfl | hc
  · exact hd
  · exact not_start_of_isBlank (hg c hc)

theorem findAll_eq (q : Pattern) (t : List Char) : q.findAll t = q.matchesFrom none 0 t := rfl

/-- The one assignment of a block is found. -/
theorem findAll_assignment {x : List Char} (hx : isIdentifier x = true) (lead : Gap) (a : Assigned) :
    assignment.findAll ('\x7b' :: (lead.chars ++ a.print x Value.masked)) =
      [⟨lead.chars.length + 1, lead.chars.length + 1 + x.length + a.before.chars.length + 2,
        [(1, lead.chars.length + 1, lead.chars.length + 1 + x.length)]⟩] := by
  have hvalue : Blank (a.after.chars ++ (a.value.masked ++ a.close.chars)) :=
    a.after.blank.append (a.value.blank_masked.append a.close.blank)
  obtain ⟨c, g, hg⟩ : ∃ c g, a.after.chars ++ (a.value.masked ++ a.close.chars) = c :: g := by
    obtain ⟨t, ht⟩ := a.value.cons
    apply List.exists_cons_of_ne_nil
    simp [Value.masked, ht]
  rw [hg] at hvalue
  have hbehind : a.after.chars ++ (a.value.masked ++ (a.close.chars ++ ';' :: a.trail.chars)) =
      c :: (g ++ ';' :: a.trail.chars) := by
    rw [← List.cons_append, ← hg]
    simp
  have htext : '\x7b' :: (lead.chars ++ a.print x Value.masked) = ('\x7b' :: lead.chars) ++
      ((x ++ (a.before.chars ++ ['=', c])) ++ (g ++ ';' :: a.trail.chars)) := by
    rw [Assigned.print, hbehind]
    simp
  have hback : ∀ c ∈ g ++ ';' :: a.trail.chars, isIdentifierStart c = false := by
    intro d hd
    rcases List.mem_append.1 hd with hd | hd
    · exact not_start_of_isBlank (hvalue d (by simp [hd]))
    · exact not_start_of_mem (by decide) a.trail.blank d hd
  have hwidth : (x ++ (a.before.chars ++ ['=', c])).length =
      x.length + (a.before.chars.length + 2) := by simp
  have hplace : 0 + ('\x7b' :: lead.chars).length = lead.chars.length + 1 := by simp
  have hstop : lead.chars.length + 1 + x.length + a.before.chars.length + 2 =
      lead.chars.length + 1 + (x ++ (a.before.chars ++ ['=', c])).length := by omega
  have hspell : x ++ (a.before.chars ++ '=' :: c :: (g ++ ';' :: a.trail.chars)) =
      (x ++ (a.before.chars ++ ['=', c])) ++ (g ++ ';' :: a.trail.chars) := by simp
  have hhit : assignment.matchAt? ⟨('\x7b' :: lead.chars).getLast?.or none, lead.chars.length + 1,
      (x ++ (a.before.chars ++ ['=', c])) ++ (g ++ ';' :: a.trail.chars)⟩ =
      some ⟨lead.chars.length + 1,
        lead.chars.length + 1 + (x ++ (a.before.chars ++ ['=', c])).length,
        [(1, lead.chars.length + 1, lead.chars.length + 1 + x.length)]⟩ := by
    rw [← hspell, ← hstop]
    exact matchAt?_assignment hx a.before.blank (hvalue c (by simp)) _ _
  rw [findAll_eq, htext,
    Pattern.matchesFrom_miss (misses_assignment (not_start_of_mem (by decide) lead.blank)), hplace,
    Pattern.matchesFrom_hit (by simp) hhit, hstop,
    Pattern.matchesFrom_eq_nil (misses_assignment hback) fun _ _ => rfl]

/-- The assignments that are found in a block are those the block makes. -/
theorem value_assignments {x : List Char} (hx : isIdentifier x = true) (b : Block) {p : Preamble}
    {i : Nat} {t m : List Char}
    (h : p.Stands i (b.print x Value.text ++ t) (b.print x Value.masked ++ m)) :
    (assignments p i (bodyStop p i)).value = entries x b := by
  have hregion : slice p.masked i (bodyStop p i) =
      '\x7b' :: (b.lead.chars ++ b.inner x Value.masked) := by
    have hslice := Preamble.Stands.slice_masked (i := i) (m := '\x7d' :: m) (t := _)
      (w := '\x7b' :: (b.lead.chars ++ b.inner x Value.masked))
      ⟨h.text, by rw [h.masked]; simp [Block.print]⟩
    rw [bodyStop_block hx b ⟨h.text, h.masked⟩]
    exact hslice
  rw [assignments, hregion]
  cases ha : b.assigned with
  | none =>
    have hinner : b.inner x Value.masked = [] := by
      rw [Block.inner, ha]
      rfl
    have hnone : assignment.findAll ('\x7b' :: (b.lead.chars ++ b.inner x Value.masked)) = [] := by
      rw [hinner, List.append_nil, findAll_eq]
      exact Pattern.matchesFrom_eq_nil
        (misses_assignment (not_start_of_mem (by decide) b.lead.blank)) (fun _ _ => rfl) 0
    rw [hnone]
    simp [assignmentsOf, entries, Block.value?, ha]
  | some a =>
    have hinner (write : Value → List Char) : b.inner x write = a.print x write := by
      rw [Block.inner, ha]
      rfl
    have hone := findAll_assignment hx b.lead a
    rw [← hinner] at hone
    have hplace : p.Stands (i + ('\x7b' :: (b.lead.chars ++ (x ++ (a.before.chars ++ ['='])))).length)
        (a.after.chars ++ (a.value.text ++ (a.close.chars ++ ';' :: (a.trail.chars ++ '\x7d' :: t))))
        (a.after.chars ++ (a.value.masked ++
          (a.close.chars ++ ';' :: (a.trail.chars ++ '\x7d' :: m)))) := by
      refine Preamble.Stands.skip ⟨?_, ?_⟩ rfl
      · rw [h.text, Block.print, hinner]
        simp [Assigned.print]
      · rw [h.masked, Block.print, hinner]
        simp [Assigned.print]
    obtain ⟨hstop, hvalue⟩ := hplace.value_at
    have hfirst : i + (b.lead.chars.length + 1 + x.length + a.before.chars.length + 2) - 1 =
        i + ('\x7b' :: (b.lead.chars ++ (x ++ (a.before.chars ++ ['='])))).length := by
      simp only [List.length_cons, List.length_append, List.length_nil]
      omega
    have hwithin : Content.statementStop p.masked
        (i + ('\x7b' :: (b.lead.chars ++ (x ++ (a.before.chars ++ ['='])))).length) ≤
          bodyStop p i := by
      rw [hstop, bodyStop_block hx b ⟨h.text, h.masked⟩, hinner, Assigned.print]
      simp only [List.length_cons, List.length_append, List.length_nil, a.value.length_masked]
      omega
    have hname : slice ('\x7b' :: (b.lead.chars ++ b.inner x Value.masked)) (b.lead.chars.length + 1)
        (b.lead.chars.length + 1 + x.length) = x := by
      rw [hinner, Assigned.print]
      exact slice_append_left ('\x7b' :: b.lead.chars) x _
    obtain ⟨c, hc, -⟩ := a.value.contents_eq
    rw [hone]
    simp only [assignmentsOf, hregion, hfirst, Nat.min_eq_left hwithin, Reviewed.value_bind,
      Reviewed.value_pure, Match.text, Match.text?, Match.span?]
    rw [hstop, hvalue, hc]
    simp [hname, entries, Block.value?, ha, hc]

theorem takeWhile_gap (g : Gap) {c : Char} (hc : isBlank c = false) (r : List Char) :
    (g.chars ++ c :: r).takeWhile isBlank = g.chars := by
  rw [List.takeWhile_append_of_pos g.blank, List.takeWhile_cons_of_neg (by simp [hc]),
    List.append_nil]

/-! ### What a variable stands for -/

theorem get?_set_self (b : Bindings) (name : String) (c : Content) :
    (b.set name c).get? name = some c := by
  have hnone : (b.filter (·.1 != name)).find? (·.1 == name) = none := by
    rw [List.find?_eq_none]
    intro e he
    simpa using (List.mem_filter.1 he).2
  simp [get?, set, List.find?_append, hnone]

/-- A variable is known and stands for what has been taken into account. -/
structure Scope.Holds (s : Scope) (x : List Char) (m : Merge) : Prop where
  known : s.knows (String.ofList x) = true
  content : s.bound.get? (String.ofList x) = m.content

/-- The assignment of a block is taken into account. -/
theorem Scope.Holds.assign_block {s : Scope} {x : List Char} {m : Merge} (h : s.Holds x m)
    (b : Block) {change : Option Content → Content → Content} {add : Value → Merge}
    (hadd : ∀ v y, v.contents = [y] → some (change m.content y) = (add v).content) :
    ((entries x b).foldl (assign change) s).Holds x (b.value?.elim m add) := by
  cases hv : b.value? with
  | none => simpa [entries, hv] using h
  | some v =>
    obtain ⟨y, hy, -⟩ := v.contents_eq
    have hset := get?_set_self s.bound (String.ofList x) (change m.content y)
    have hstep : (entries x b).foldl (assign change) s =
        { s with bound := s.bound.set (String.ofList x) (change m.content y) } := by
      simp [entries, hv, hy, assign, h.known, h.content]
    rw [hstep]
    refine ⟨?_, ?_⟩
    · rw [Scope.knows, hset]
      rfl
    · exact hset.trans (hadd v y hy)

theorem Scope.Holds.under {s : Scope} {x : List Char} {m : Merge} (h : s.Holds x m) (c : String)
    (b : Block) : ((entries x b).foldl (assign fun old y => underCondition old c y) s).Holds x
      (b.value?.elim m (m.addArm c)) :=
  h.assign_block b fun _ _ hy => Merge.underCondition_content m c hy

theorem Scope.Holds.underElse {s : Scope} {x : List Char} {m : Merge} (h : s.Holds x m) (c : String)
    (b : Block) : ((entries x b).foldl (assign fun old y => Bindings.underElse old c y) s).Holds x
      (b.value?.elim m (m.addElse c)) :=
  h.assign_block b fun _ _ hy => Merge.underElse_content m c hy

/-! ### Conditions -/

section
variable {p : Preamble} {i : Nat} {t m : List Char}

theorem elseBody?_eq_none {g r : List Char} (hg : Blank g)
    (hr : ∀ c ∈ r.head?, isBlank c = false ∧ c ≠ 'e') (h : p.masked.drop i = g ++ r) :
    elseBody? p i = none := by
  rw [elseBody?, h, find?_elseHead_eq_none hg hr]
  split <;> rfl

/-- The body behind an `else` is found, unless another `if` stands there. -/
theorem elseBody?_eq {before after : Gap} {r : List Char}
    (hedge : ∀ c ∈ (after.chars ++ r).head?, isWord c = false)
    (hr : ∀ c ∈ r.head?, isBlank c = false)
    (h : p.masked.drop i = before.chars ++ ("else".toList ++ (after.chars ++ r))) :
    elseBody? p i =
      if (ifHead.matchAt? (Cursor.ofText r)).isSome = true then none
      else some (i + (before.chars ++ ("else".toList ++ after.chars)).length,
        bodyStop p (i + (before.chars ++ ("else".toList ++ after.chars)).length)) := by
  have hinside : ¬ p.masked.length < i := by
    intro hlt
    rw [List.drop_of_length_le (Nat.le_of_lt hlt)] at h
    simp at h
  have hwidth : before.chars.length + (after.chars.length + 4) =
      (before.chars ++ ("else".toList ++ after.chars)).length := by
    have hlen : "else".toList.length = 4 := rfl
    simp only [List.length_append]
    omega
  have hrest : p.masked.drop (i + (before.chars ++ ("else".toList ++ after.chars)).length) = r := by
    have hsplit : before.chars ++ ("else".toList ++ (after.chars ++ r)) =
        (before.chars ++ ("else".toList ++ after.chars)) ++ r := by simp
    rw [← List.drop_drop, h, hsplit, List.drop_left]
  rw [elseBody?, if_neg hinside, h, find?_elseHead_eq_some before.blank after.blank hedge hr]
  simp only [Option.bind_eq_bind, Option.bind_some, hwidth, hrest]

variable {x : List Char} (hx : isIdentifier x = true) {a : Arm}
include hx

omit hx in
/-- From a condition that is found the text goes on with its code, masked or not. -/
theorem Preamble.Stands.guard
    (h : p.Stands i (a.print x Value.text ++ t) (a.print x Value.masked ++ m)) :
    p.Stands (i + (a.gap.chars.length + 3))
      (a.guard.code ++ ')' :: (a.lead.chars ++ (a.block.print x Value.text ++ t)))
      (a.guard.code ++ ')' :: (a.lead.chars ++ (a.block.print x Value.masked ++ m))) := by
  have hif : "if".toList.length = 2 := rfl
  have hplace : i + (a.gap.chars.length + 3) = i + ("if".toList ++ (a.gap.chars ++ ['('])).length := by
    simp only [List.length_append, List.length_singleton]
    omega
  rw [hplace]
  refine Preamble.Stands.skip ⟨?_, ?_⟩ rfl
  · rw [h.text]
    simp [Arm.print]
  · rw [h.masked]
    simp [Arm.print]

omit hx in
/-- The bracket of a condition is closed right behind its code. -/
theorem balancedEnd?_guard (h : p.Stands i t (a.print x Value.masked ++ m)) :
    balancedEnd? p.masked (i + (a.gap.chars.length + 3) - 1) =
      some (i + (a.gap.chars.length + 3) + a.guard.code.length) := by
  have hif : "if".toList.length = 2 := rfl
  have hplace : i + (a.gap.chars.length + 3) - 1 = i + ("if".toList ++ a.gap.chars).length := by
    simp only [List.length_append]
    omega
  have hsplit : a.print x Value.masked ++ m = ("if".toList ++ a.gap.chars) ++ '(' ::
      (a.guard.code ++ ')' :: (a.lead.chars ++ (a.block.print x Value.masked ++ m))) := by
    simp [Arm.print]
  have hopen : p.masked.drop (i + ("if".toList ++ a.gap.chars).length) = '(' ::
      (a.guard.code ++ ')' :: (a.lead.chars ++ (a.block.print x Value.masked ++ m))) := by
    rw [← List.drop_drop, h.masked, hsplit, List.drop_left]
  have hsum : i + ("if".toList ++ a.gap.chars).length + (a.guard.code.length + 1) =
      i + (a.gap.chars.length + 3) + a.guard.code.length := by omega
  rw [balancedEnd?, hplace, hopen, balancedLength?_group rfl a.guard.sealed, Option.map_some, hsum]

/-- What an arm does to the scope, up to its `else`. -/
theorem value_conditional (s : Scope)
    (h : p.Stands i (a.print x Value.text ++ t) (a.print x Value.masked ++ m)) :
    (conditional p s ⟨i, i + (a.gap.chars.length + 3), []⟩).value =
      let s' := (entries x a.block).foldl (assign fun old y => underCondition old a.name y) s
      match elseBody? p (i + (a.print x Value.text).length) with
      | none => s'
      | some (start, stop) => (assignments p start stop).value.foldl
          (assign fun old y => underElse old a.name y) s' := by
  have hguard := h.guard
  have hlead := (hguard.skip rfl).skip_cons
  have hblock := hlead.skip rfl
  have hname := congrArg (fun t => String.ofList (stripProps (trim t))) hguard.slice_eq
  have hblanks : ((p.text.drop (i + (a.gap.chars.length + 3) + a.guard.code.length + 1)).takeWhile
      isBlank).length = a.lead.chars.length := by
    rw [hlead.text, Block.print, List.cons_append, takeWhile_gap]
    rfl
  have hstop : bodyStop p
      (i + (a.gap.chars.length + 3) + a.guard.code.length + 1 + a.lead.chars.length) + 1 =
      i + (a.print x Value.text).length := by
    have hif : "if".toList.length = 2 := rfl
    have hlen := (a.block.written_inner hx).length_eq
    rw [bodyStop_block hx a.block hblock, Arm.print, Block.print]
    simp only [List.length_append, List.length_cons, List.length_nil, hlen]
    omega
  simp only [conditional, balancedEnd?_guard ⟨h.text, h.masked⟩, hblanks, Reviewed.value_bind,
    value_assignments hx a.block hblock, hstop]
  cases elseBody? p (i + (a.print x Value.text).length) with
  | none => rw [hname]; rfl
  | some span => rw [hname]; rfl

end

end Bindings

end JsxToJinja
