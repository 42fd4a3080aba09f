import JsxToJinja.Markup.Mask
import JsxToJinja.Proofs.Markup.Elements

/-! Code with elements behind its assignments. Masking blanks the elements and leaves the rest. -/
namespace JsxToJinja.Markup
open JsxToJinja.Text JsxToJinja.Code

/-- Text whose literals close, whatever its brackets do. -/
inductive Unquoted : List Char → Prop where
  | nil : Unquoted []
  | char {c : Char} {t : List Char} : isQuote c = false → Unquoted t → Unquoted (c :: t)
  | literal {q : Char} {body t : List Char} : isQuote q = true → LiteralBody q body →
      Unquoted t → Unquoted (q :: (body ++ q :: t))

/-- Code in which no element begins. -/
structure Quiet (w : List Char) : Prop where
  closed : Unquoted w
  noTag : ∀ u v rest, w = u ++ v → v ≠ [] → opensTag (v ++ rest) = false

/-- An element that is read to its own end, whatever follows it, and that is no fragment. -/
structure Value where
  text : List Char
  opens : opensTag text = true
  closes : text.getLast? = some '>'
  reads : ∀ fuel pos rest, (text ++ rest).length ≤ fuel → ∃ e,
    elementAt? fuel pos (text ++ rest) = some (e, rest) ∧ e.stop = pos + text.length ∧ e.name ≠ ""

def Value.masked (v : Value) : List Char := v.text.map fun c => if c == '\n' then c else ' '

/-- Code without elements, or the sign of an assignment and the element behind it. -/
inductive Piece where
  | code (w : List Char) (quiet : Quiet w)
  | value (gap : List Char) (blank : Blank gap) (v : Value)

namespace Piece

def print (write : Value → List Char) : Piece → List Char
  | code w _ => w
  | value gap _ v => '=' :: (gap ++ write v)

end Piece

def printAll (write : Value → List Char) (ps : List Piece) : List Char :=
  ps.flatMap (Piece.print write)

def spansOf : Nat → List Piece → List (Nat × Nat)
  | _, [] => []
  | i, .code w _ :: ps => spansOf (i + w.length) ps
  | i, .value gap _ v :: ps =>
    let first := i + (gap.length + 1)
    (first, first + v.text.length) :: spansOf (first + v.text.length) ps

/-! ### Quiet code -/

theorem Unquoted.append {a b : List Char} (ha : Unquoted a) (hb : Unquoted b) :
    Unquoted (a ++ b) := by
  induction ha with
  | nil => exact hb
  | char hc _ ih => exact .char hc ih
  | literal hq hl _ ih => simpa using Unquoted.literal hq hl ih

theorem unquoted_of_sealed {avoid w : List Char} (h : Sealed avoid w) : Unquoted w := by
  induction h with
  | nil => exact .nil
  | plain _ ho _ ih => exact .char (isQuote_eq_false ho) ih
  | link _ _ ih => exact .char (by decide) (.char (by decide) ih)
  | literal hq hb _ ih => exact .literal hq hb ih
  | @group _ o c inner t hc _ _ ihi ih =>
    have hbrackets : isQuote o = false ∧ isQuote c = false := by
      obtain ⟨rfl, rfl⟩ | ⟨rfl, rfl⟩ | ⟨rfl, rfl⟩ := closingFor?_cases hc <;> decide
    exact .char hbrackets.1 (ihi.append (.char hbrackets.2 ih))

theorem unquoted_of_plain {w : List Char} (h : ∀ c ∈ w, isQuote c = false) : Unquoted w := by
  induction w with
  | nil => exact .nil
  | cons c w ih => exact .char (h c (by simp)) (ih fun d hd => h d (by simp [hd]))

/-- No tag begins without its sign. -/
theorem quiet_of_plain {w : List Char} (h : ∀ c ∈ w, isQuote c = false ∧ c ≠ '<') : Quiet w := by
  refine ⟨unquoted_of_plain fun c hc => (h c hc).1, ?_⟩
  rintro u v rest rfl hv
  obtain ⟨c, v, rfl⟩ := List.exists_cons_of_ne_nil hv
  exact opensTag_of_ne (h c (by simp)).2 _

theorem Quiet.append {a b : List Char} (ha : Quiet a) (hb : Quiet b) : Quiet (a ++ b) := by
  refine ⟨ha.closed.append hb.closed, ?_⟩
  intro u v rest he hv
  rcases List.append_eq_append_iff.1 he with ⟨m, hu, hb'⟩ | ⟨m, ha', hv'⟩
  · exact hb.noTag m v rest hb' hv
  · cases m with
    | nil => exact hb.noTag [] v rest (by simpa using hv'.symm) hv
    | cons c m =>
      rw [hv', List.append_assoc]
      exact ha.noTag u (c :: m) (b ++ rest) ha' (by simp)

/-! ### Finding elements -/

/-- What is found along the marks depends on positions and characters only. -/
theorem findSome?_marksFrom {f : Nat → Char → Option β} (mode : Mode) (d d' : Nat) {i i' k k' : Nat}
    (h : k + i = k' + i') (t : List Char) :
    (marksFrom mode d i t).findSome? (fun m => f (k + m.index) m.char) =
      (marksFrom mode d' i' t).findSome? (fun m => f (k' + m.index) m.char) := by
  induction t generalizing mode d d' i i' with
  | nil => cases mode <;> rfl
  | cons c t ih =>
    have hnext : k + (i + 1) = k' + (i' + 1) := by omega
    cases mode with
    | escaped q => exact ih _ _ _ hnext
    | quoted q =>
      rw [marksFrom, marksFrom]
      split
      · exact ih _ _ _ hnext
      · split
        · simp only [List.findSome?_cons, h, ih .code d d' hnext]
        · exact ih _ _ _ hnext
    | code =>
      rw [marksFrom, marksFrom]
      split
      · simp only [List.findSome?_cons, h, ih (.quoted c) d d' hnext]
      · split
        · simp only [List.findSome?_cons, h, ih .code (d + 1) (d' + 1) hnext]
        · split
          · simp only [List.findSome?_cons, h, ih .code (d - 1) (d' - 1) hnext]
          · simp only [List.findSome?_cons, h, ih .code d d' hnext]

theorem Unquoted.marksFrom_append {w : List Char} (h : Unquoted w) (d i : Nat) (rest : List Char) :
    ∃ ms d', marksFrom .code d i (w ++ rest) = ms ++ marksFrom .code d' (i + w.length) rest ∧
      ∀ m ∈ ms, m.index < i + w.length := by
  induction h generalizing d i with
  | nil => exact ⟨[], d, rfl, by simp⟩
  | @char c t hc _ ih =>
    have hl : i + (c :: t).length = i + 1 + t.length := by
      simp only [List.length_cons]
      omega
    -- the depth behind the character is of no interest
    have hfirst : ∃ depth d₁, marksFrom .code d i (c :: (t ++ rest)) =
        ⟨i, c, depth, c :: (t ++ rest)⟩ :: marksFrom .code d₁ (i + 1) (t ++ rest) := by
      rw [marksFrom, if_neg (by simp [hc])]
      split
      · exact ⟨_, _, rfl⟩
      · split <;> exact ⟨_, _, rfl⟩
    obtain ⟨depth, d₁, hfirst⟩ := hfirst
    obtain ⟨ms, d', he, hm⟩ := ih d₁ (i + 1)
    refine ⟨⟨i, c, depth, c :: (t ++ rest)⟩ :: ms, d', ?_, ?_⟩
    · rw [List.cons_append, hfirst, he, hl, List.cons_append]
    · rintro m (_ | ⟨_, hm'⟩)
      · simp only [List.length_cons]
        omega
      · rw [hl]
        exact hm m hm'
  | @literal q body t hq hb _ ih =>
    have hl : i + (q :: (body ++ q :: t)).length = i + 1 + body.length + 1 + t.length := by
      simp only [List.length_cons, List.length_append]
      omega
    obtain ⟨ms, d', he, hm⟩ := ih d (i + 1 + body.length + 1)
    refine ⟨⟨i, q, d, q :: (body ++ q :: (t ++ rest))⟩ ::
      ⟨i + 1 + body.length, q, d, q :: (t ++ rest)⟩ :: ms, d', ?_, ?_⟩
    · rw [List.cons_append, marksFrom, if_pos hq, List.append_assoc, List.cons_append,
        marksFrom_literal hq hb, he, hl, List.cons_append, List.cons_append]
    · rw [hl]
      rintro m (_ | ⟨_, _ | ⟨_, hm'⟩⟩)
      · simp only
        omega
      · simp only
        omega
      · exact hm m hm'

def probe (t : List Char) (i : Nat) (c : Char) : Option Element :=
  if c == '<' && mayOpen t i then parseElement? t i else none

theorem elementIn?_eq (t : List Char) (start : Nat) :
    elementIn? t start = (marks (t.drop start)).findSome? fun m => probe t (start + m.index) m.char :=
  rfl

theorem drop_within {pre w rest : List Char} {k : Nat} (h : k ≤ w.length) :
    (pre ++ (w ++ rest)).drop (pre.length + k) = w.drop k ++ rest := by
  rw [← List.drop_drop, List.drop_left, List.drop_append_of_le_length h]

/-- The search for an element may as well start behind quiet code. -/
theorem elementIn?_quiet {w : List Char} (h : Quiet w) (pre rest : List Char) :
    elementIn? (pre ++ (w ++ rest)) pre.length =
      elementIn? (pre ++ (w ++ rest)) (pre ++ w).length := by
  obtain ⟨ms, d, he, hm⟩ := h.closed.marksFrom_append 0 0 rest
  rw [Nat.zero_add] at he hm
  have hnone : ms.findSome? (fun m => probe (pre ++ (w ++ rest)) (pre.length + m.index) m.char) =
      none := by
    rw [List.findSome?_eq_none_iff]
    intro m hmem
    have hlt := hm m hmem
    have hopens : opensTag ((pre ++ (w ++ rest)).drop (pre.length + m.index)) = false := by
      rw [drop_within (Nat.le_of_lt hlt)]
      refine h.noTag (w.take m.index) (w.drop m.index) rest (List.take_append_drop _ _).symm ?_
      simpa using hlt
    rw [probe, mayOpen, hopens, Bool.false_and, Bool.and_false]
    rfl
  have hback : (pre ++ (w ++ rest)).drop (pre ++ w).length = rest := by
    rw [← List.append_assoc, List.drop_left]
  have hsum : pre.length + w.length = (pre ++ w).length + 0 := by simp
  rw [elementIn?_eq, elementIn?_eq, List.drop_left, hback, marks, he, List.findSome?_append, hnone,
    Option.none_or, marks]
  exact findSome?_marksFrom .code d 0 hsum rest

/-- An element starts at the position it is read from. -/
theorem start_of_elementAt? {fuel pos : Nat} {t rest : List Char} {e : Element}
    (h : elementAt? fuel pos t = some (e, rest)) : e.start = pos := by
  cases fuel with
  | zero => cases h
  | succ fuel =>
    simp only [elementAt?, Option.bind_eq_bind, Option.bind_eq_some_iff] at h
    obtain ⟨⟨tag, after⟩, -, h⟩ := h
    split at h
    · cases h
      rfl
    · obtain ⟨⟨nodes, stop, last⟩, -, h⟩ := Option.bind_eq_some_iff.1 h
      cases h
      rfl

theorem Value.cons (v : Value) : ∃ t, v.text = '<' :: t := by
  have h := v.opens
  unfold opensTag at h
  split at h
  · exact ⟨_, by assumption⟩
  · cases h

theorem opensTag_append {t : List Char} (h : opensTag t = true) (rest : List Char) :
    opensTag (t ++ rest) = true := by
  unfold opensTag at h
  split at h
  · exact h
  · cases h

/-- Behind the sign of an assignment an element may begin. -/
theorem mayOpen_assigned {gap t : List Char} {i : Nat} (hg : Blank gap) (pre : List Char)
    (htake : t.take i = pre ++ '=' :: gap) (hopens : opensTag (t.drop i) = true) :
    mayOpen t i = true := by
  have hback : ∀ c ∈ gap.reverse, isBlank c = true := hg.reverse
  have hend : trimEnd (t.take i) = pre ++ ['='] := by
    rw [htake, trimEnd, List.reverse_append, List.reverse_cons, List.append_assoc,
      List.dropWhile_append_of_pos hback, List.singleton_append, List.dropWhile_cons,
      if_neg (by decide), List.reverse_cons, List.reverse_reverse]
  simp only [mayOpen, hopens, hend, List.getLast?_concat]
  simp

/-- An element behind the sign of an assignment is found. -/
theorem elementIn?_value {gap : List Char} (hg : Blank gap) (v : Value) (pre rest : List Char) :
    ∃ e, elementIn? (pre ++ ('=' :: gap ++ (v.text ++ rest))) (pre ++ '=' :: gap).length = some e ∧
      e.start = (pre ++ '=' :: gap).length ∧
      e.stop = (pre ++ '=' :: gap).length + v.text.length := by
  have hdrop : (pre ++ ('=' :: gap ++ (v.text ++ rest))).drop (pre ++ '=' :: gap).length =
      v.text ++ rest := by
    rw [← List.append_assoc, List.drop_left]
  have htake : (pre ++ ('=' :: gap ++ (v.text ++ rest))).take (pre ++ '=' :: gap).length =
      pre ++ '=' :: gap := by
    rw [← List.append_assoc, List.take_left]
  generalize pre ++ ('=' :: gap ++ (v.text ++ rest)) = t at hdrop htake ⊢
  generalize (pre ++ '=' :: gap).length = i at hdrop htake ⊢
  obtain ⟨e, he, hstop, -⟩ := v.reads ((t.drop i).length + 2) i rest (by rw [hdrop]; omega)
  have hparse : parseElement? t i = some e := by
    rw [← hdrop] at he
    simp only [parseElement?, he, Option.map_some]
  have hopen : mayOpen t i = true :=
    mayOpen_assigned hg pre htake (by rw [hdrop]; exact opensTag_append v.opens rest)
  obtain ⟨s, hs⟩ := v.cons
  have hmarks : marks (t.drop i) = ⟨0, '<', 0, '<' :: (s ++ rest)⟩ :: marksFrom .code 0 1 (s ++ rest) := by
    rw [hdrop, hs]
    exact marksFrom_ordinary (by decide) 0 0 (s ++ rest)
  refine ⟨e, ?_, start_of_elementAt? he, hstop⟩
  rw [elementIn?_eq, hmarks, List.findSome?_cons]
  simp [probe, hopen, hparse]

/-! ### Masking -/

theorem printAll_cons (write : Value → List Char) (p : Piece) (ps : List Piece) :
    printAll write (p :: ps) = p.print write ++ printAll write ps := rfl

theorem printAll_append (write : Value → List Char) (ps qs : List Piece) :
    printAll write (ps ++ qs) = printAll write ps ++ printAll write qs :=
  List.flatMap_append

theorem quiet_assign {gap : List Char} (hg : Blank gap) : Quiet ('=' :: gap) := by
  apply quiet_of_plain
  intro c hc
  rcases List.mem_cons.1 hc with rfl | hc
  · decide
  · have hb := hg c hc
    refine ⟨isQuote_eq_false (isOrdinary_of_isBlank hb), ?_⟩
    rintro rfl
    exact absurd hb (by decide)

theorem length_spansOf (i : Nat) (ps : List Piece) :
    (spansOf i ps).length ≤ (printAll Value.text ps).length := by
  induction ps generalizing i with
  | nil => simp [spansOf]
  | cons p ps ih =>
    rw [printAll_cons, List.length_append]
    cases p with
    | code w _ => exact Nat.le_trans (ih _) (Nat.le_add_left _ _)
    | value gap _ v =>
      have := ih (i + (gap.length + 1) + v.text.length)
      simp only [spansOf, Piece.print, List.length_cons]
      omega

theorem spansFrom_quiet {w : List Char} (h : Quiet w) (pre rest : List Char) (fuel : Nat) :
    spansFrom (pre ++ (w ++ rest)) fuel pre.length =
      spansFrom (pre ++ (w ++ rest)) fuel (pre ++ w).length := by
  cases fuel with
  | zero => rfl
  | succ fuel => rw [spansFrom, spansFrom, elementIn?_quiet h]

/-- The elements are found one after the other. -/
theorem spansFrom_printAll (pre : List Char) (ps : List Piece) {fuel : Nat}
    (hf : (spansOf pre.length ps).length < fuel) :
    spansFrom (pre ++ printAll Value.text ps) fuel pre.length = spansOf pre.length ps := by
  induction ps generalizing pre fuel with
  | nil =>
    have hnone : elementIn? (pre ++ []) pre.length = none := by
      rw [elementIn?_eq, List.drop_left]
      rfl
    obtain ⟨fuel, rfl⟩ := Nat.exists_eq_succ_of_ne_zero (Nat.ne_zero_of_lt hf)
    rw [printAll, List.flatMap_nil, spansFrom, hnone]
    rfl
  | cons p ps ih =>
    cases p with
    | code w hw =>
      have hrest := ih (pre ++ w) (by simpa [spansOf] using hf)
      rw [List.append_assoc] at hrest
      rw [printAll_cons, Piece.print, spansFrom_quiet hw, hrest, spansOf, List.length_append]
    | value gap hg v =>
      obtain ⟨fuel, rfl⟩ := Nat.exists_eq_succ_of_ne_zero (Nat.ne_zero_of_lt hf)
      obtain ⟨e, he, hstart, hstop⟩ := elementIn?_value hg v pre (printAll Value.text ps)
      have hfirst : (pre ++ '=' :: gap).length = pre.length + (gap.length + 1) := by simp
      have hbehind : (pre ++ ('=' :: gap ++ v.text)).length =
          pre.length + (gap.length + 1) + v.text.length := by
        simp only [List.length_append, List.length_cons]
        omega
      have hfuel : (spansOf (pre ++ ('=' :: gap ++ v.text)).length ps).length < fuel := by
        rw [hbehind]
        simpa [spansOf] using hf
      have hrest := ih _ hfuel
      have htext : pre ++ ('=' :: gap ++ v.text) ++ printAll Value.text ps =
          pre ++ ('=' :: gap ++ (v.text ++ printAll Value.text ps)) := by simp
      have hprint : (Piece.value gap hg v).print Value.text ++ printAll Value.text ps =
          '=' :: gap ++ (v.text ++ printAll Value.text ps) := by simp [Piece.print]
      rw [htext, hbehind] at hrest
      rw [printAll_cons, hprint, spansFrom_quiet (quiet_assign hg), spansFrom, he]
      simp only [hstart, hstop, hfirst, hrest, spansOf]

theorem elementSpans_printAll (ps : List Piece) :
    elementSpans (printAll Value.text ps) = spansOf 0 ps := by
  have h := spansFrom_printAll [] ps (Nat.lt_succ_of_le (length_spansOf 0 ps))
  exact h

def maskedChar (spans : List (Nat × Nat)) (c : Char) (i : Nat) : List Char :=
  if c != '\n' && spans.any (fun s => s.1 ≤ i && i < s.2) then List.replicate 1 ' ' else [c]

theorem mask_eq (t : List Char) :
    mask t = t.zipIdx.flatMap fun x => maskedChar (elementSpans t) x.1 x.2 := rfl

theorem lower_spansOf {i : Nat} {ps : List Piece} {s : Nat × Nat} (h : s ∈ spansOf i ps) :
    i ≤ s.1 := by
  induction ps generalizing i with
  | nil => cases h
  | cons p ps ih =>
    cases p with
    | code w _ => exact Nat.le_trans (Nat.le_add_right _ _) (ih h)
    | value gap _ v =>
      simp only [spansOf] at h
      rcases List.mem_cons.1 h with rfl | h
      · exact Nat.le_add_right _ _
      · exact Nat.le_trans (by omega) (ih h)

/-- Characters outside the spans stay. -/
theorem flatMap_outside {spans : List (Nat × Nat)} {w : List Char} {i : Nat}
    (h : ∀ s ∈ spans, s.2 ≤ i ∨ i + w.length ≤ s.1) :
    (w.zipIdx i).flatMap (fun x => maskedChar spans x.1 x.2) = w := by
  induction w generalizing i with
  | nil => rfl
  | cons c w ih =>
    have hnone : spans.any (fun s => s.1 ≤ i && i < s.2) = false := by
      rw [List.any_eq_false]
      intro s hs
      have := h s hs
      simp only [List.length_cons] at this
      simp only [Bool.and_eq_true, decide_eq_true_eq, not_and]
      omega
    have hrest := ih (i := i + 1) fun s hs => by
      have := h s hs
      simp only [List.length_cons] at this
      omega
    rw [List.zipIdx_cons, List.flatMap_cons, hrest, maskedChar, hnone, Bool.and_false]
    rfl

/-- Characters inside a span are blanked. -/
theorem flatMap_inside {spans : List (Nat × Nat)} {w : List Char} {i lo hi : Nat}
    (h : (lo, hi) ∈ spans) (hlo : lo ≤ i) (hhi : i + w.length ≤ hi) :
    (w.zipIdx i).flatMap (fun x => maskedChar spans x.1 x.2) =
      w.map fun c => if c == '\n' then c else ' ' := by
  induction w generalizing i with
  | nil => rfl
  | cons c w ih =>
    simp only [List.length_cons] at hhi
    have hsome : spans.any (fun s => s.1 ≤ i && i < s.2) = true := by
      rw [List.any_eq_true]
      refine ⟨(lo, hi), h, ?_⟩
      simp only [Bool.and_eq_true, decide_eq_true_eq]
      omega
    rw [List.zipIdx_cons, List.flatMap_cons, ih (by omega) (by omega), maskedChar, hsome, Bool.and_true]
    by_cases hc : c = '\n' <;> simp [hc]

/-- Masking is done piece by piece. -/
theorem flatMap_printAll {before : List (Nat × Nat)} (i : Nat) (ps : List Piece)
    (h : ∀ s ∈ before, s.2 ≤ i) :
    ((printAll Value.text ps).zipIdx i).flatMap
      (fun x => maskedChar (before ++ spansOf i ps) x.1 x.2) = printAll Value.masked ps := by
  induction ps generalizing before i with
  | nil => rfl
  | cons p ps ih =>
    cases p with
    | code w hw =>
      have hout : ∀ s ∈ before ++ spansOf (i + w.length) ps, s.2 ≤ i ∨ i + w.length ≤ s.1 := by
        intro s hs
        rcases List.mem_append.1 hs with hs | hs
        · exact .inl (h s hs)
        · exact .inr (lower_spansOf hs)
      have hbefore : ∀ s ∈ before, s.2 ≤ i + w.length := fun s hs =>
        Nat.le_trans (h s hs) (Nat.le_add_right _ _)
      have hrest := ih (i + w.length) hbefore
      rw [printAll_cons, printAll_cons, Piece.print, Piece.print, List.zipIdx_append, List.flatMap_append,
        spansOf, flatMap_outside hout, hrest]
    | value gap hg v =>
      let first := i + (gap.length + 1)
      let stop := first + v.text.length
      have hspans : before ++ spansOf i (.value gap hg v :: ps) =
          (before ++ [(first, stop)]) ++ spansOf stop ps := by
        simp [spansOf, first, stop]
      have hbefore : ∀ s ∈ before ++ [(first, stop)], s.2 ≤ stop := by
        intro s hs
        rcases List.mem_append.1 hs with hs | hs
        · have := h s hs
          omega
        · obtain rfl := List.mem_singleton.1 hs
          exact Nat.le_refl stop
      have hout : ∀ s ∈ (before ++ [(first, stop)]) ++ spansOf stop ps,
          s.2 ≤ i ∨ i + ('=' :: gap).length ≤ s.1 := by
        intro s hs
        simp only [List.mem_append, List.mem_singleton, List.length_cons] at hs ⊢
        rcases hs with (hs | rfl) | hs
        · exact .inl (h s hs)
        · exact .inr (Nat.le_refl first)
        · have := lower_spansOf hs
          exact .inr (by omega)
      have hin : (first, stop) ∈ (before ++ [(first, stop)]) ++ spansOf stop ps := by simp
      have hpiece (write : Value → List Char) :
          (Piece.value gap hg v).print write = ('=' :: gap) ++ write v := rfl
      have hfirst : i + ('=' :: gap).length = first := rfl
      have hstop : i + (('=' :: gap) ++ v.text).length = stop := by
        rw [List.length_append, ← Nat.add_assoc, hfirst]
      rw [hspans, printAll_cons, printAll_cons, hpiece, hpiece, List.zipIdx_append, List.zipIdx_append,
        List.flatMap_append, List.flatMap_append, flatMap_outside hout, hfirst,
        flatMap_inside hin (Nat.le_refl first) (Nat.le_refl stop), hstop, ih stop hbefore]
      rfl

/-- Masking blanks the elements and nothing else. -/
theorem mask_printAll (ps : List Piece) :
    mask (printAll Value.text ps) = printAll Value.masked ps := by
  have h : ∀ s ∈ ([] : List (Nat × Nat)), s.2 ≤ 0 := by simp
  rw [mask_eq, elementSpans_printAll]
  exact flatMap_printAll 0 ps h

theorem Value.length_masked (v : Value) : v.masked.length = v.text.length := List.length_map _

theorem Value.blank_masked (v : Value) : Blank v.masked := by
  intro c hc
  obtain ⟨d, -, rfl⟩ := List.mem_map.1 hc
  by_cases hd : d = '\n'
  · simp [hd, isBlank]
  · simp [hd, isBlank]

/-- Masking keeps the number of characters. -/
theorem length_printAll (ps : List Piece) :
    (printAll Value.masked ps).length = (printAll Value.text ps).length := by
  induction ps with
  | nil => rfl
  | cons p ps ih =>
    rw [printAll_cons, printAll_cons, List.length_append, List.length_append, ih]
    cases p with
    | code w _ => rfl
    | value gap _ v => simp [Piece.print, v.length_masked]

def Value.ofElement {u : Usage} {t : List Char} (h : IsElement u t) : Value where
  text := t
  opens := by
    cases h with
    | closed hs =>
      obtain ⟨c, s, rfl, hc, -⟩ := hs.opens
      exact hc
    | paired hs _ _ _ =>
      obtain ⟨c, s, rfl, hc, -⟩ := hs.opens
      exact hc
  closes := h.last
  reads fuel pos rest hf := by
    obtain ⟨e, he, hstop, hu⟩ := h.elementAt? hf pos
    have hname := h.name_ne
    rw [← hu] at hname
    exact ⟨e, he, hstop, hname⟩

end JsxToJinja.Markup
