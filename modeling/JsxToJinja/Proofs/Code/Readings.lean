import JsxToJinja.Proofs.Code.Comparisons

/-! How a text comes apart: into the parts of a conditional, into the operands of `||`, into those of
`&&`, or not at all. The scans for operators follow the levels of the expression, so a text has one
reading at most. -/
namespace JsxToJinja.Code
open JsxToJinja.Text JsxToJinja.Markup

/-- An operand of `&&` or `||` with the blanks around it. -/
structure Piece (k : Nat) where
  expr : Expression
  before : List Char
  text : List Char
  after : List Char
  blank_before : Blank before
  blank_after : Blank after
  reads : Reads k expr text

namespace Piece

def raw {k : Nat} (p : Piece k) : List Char := p.before ++ (p.text ++ p.after)

theorem trim_raw {k : Nat} (p : Piece k) : trim p.raw = p.text :=
  trim_pad p.blank_before p.reads.edged.trimmed p.blank_after

end Piece

def joined (j : Junction) {k : Nat} (first : Piece k) (rest : List (Piece k)) : Expression :=
  rest.foldl (fun e p => .join j e p.expr) first.expr

def chainText (j : Junction) {k : Nat} (ps : List (Piece k)) : List Char :=
  j.symbol.intercalate (ps.map Piece.raw)

theorem intercalate_concat {sep r : List Char} {rs : List (List Char)} (h : rs ≠ []) :
    sep.intercalate (rs ++ [r]) = sep.intercalate rs ++ (sep ++ r) := by
  induction rs with
  | nil => exact absurd rfl h
  | cons s rs ih =>
    cases rs with
    | nil => simp [List.intercalate]
    | cons s' rs =>
      have := ih (by simp)
      simp only [List.intercalate, List.cons_append, List.intersperse_cons_cons, List.flatten_cons] at this ⊢
      rw [this]
      simp

/-- A text at the level of an operator is a chain of operands above that level. -/
theorem Reads.chain {j : Junction} {k : Nat} {e : Expression} {t w : List Char}
    (h : Reads k e t) (hk : k = j.level) (hw : Blank w) :
    ∃ (first : Piece (j.level + 1)) (rest : List (Piece (j.level + 1))),
      e = joined j first rest ∧ t ++ w = chainText j (first :: rest) := by
  have hone {e : Expression} {t w : List Char} (h : Reads (j.level + 1) e t) (hw : Blank w) :
      ∃ (first : Piece (j.level + 1)) (rest : List (Piece (j.level + 1))),
        e = joined j first rest ∧ t ++ w = chainText j (first :: rest) :=
    ⟨⟨e, [], t, w, blank_nil, hw, h⟩, [], rfl, by simp [chainText, Piece.raw, List.intercalate]⟩
  have hlevel : 1 ≤ j.level ∧ j.level ≤ 2 := by cases j <;> decide
  induction h generalizing w with
  | path _ hp hx => exact hone (.path (by omega) hp hx) hw
  | str _ hq => exact hone (.str (by omega) hq) hw
  | markup _ hm => exact hone (.markup (by omega) hm) hw
  | absent _ hx => exact hone (.absent (by omega) hx) hw
  | compare _ hx hv hl hp hq => exact hone (.compare (by omega) hx hv hl hp hq) hw
  | flipped _ hx hv hl hp hq => exact hone (.flipped (by omega) hx hv hl hp hq) hw
  | not _ hp he _ => exact hone (.not (by omega) hp he) hw
  | paren _ he hp hq _ => exact hone (.paren (by omega) he hp hq) hw
  | cond => omega
  | @join k j' a b s p q t hkj ha hb hp hq iha _ =>
    by_cases hj : j' = j
    · -- the operand on the left is a chain itself, the one on the right comes behind it
      subst hj
      obtain ⟨first, rest, he, ht⟩ := iha rfl hp
      let last : Piece (j'.level + 1) := ⟨b, q, t, w, hq, hw, hb⟩
      refine ⟨first, rest ++ [last], ?_, ?_⟩
      · rw [he, joined, joined, List.foldl_append]
        rfl
      · have htext : s ++ (p ++ (j'.symbol ++ (q ++ t))) ++ w = (s ++ p) ++ (j'.symbol ++ last.raw) := by
          simp [Piece.raw, last]
        have hne : (first :: rest).map Piece.raw ≠ [] := by simp
        rw [htext, ht, chainText, chainText, ← intercalate_concat hne, ← List.map_singleton,
          ← List.map_append, List.cons_append]
    · have hlt : j.level + 1 ≤ j'.level := by
        cases j <;> cases j' <;> simp_all [Junction.level]
      exact hone (.join hlt ha hb hp hq) hw

theorem chainText_cons (j : Junction) {k : Nat} (p q : Piece k) (ps : List (Piece k)) :
    chainText j (p :: q :: ps) = p.raw ++ (j.symbol ++ chainText j (q :: ps)) := by
  simp [chainText, List.intercalate]

/-- Every operand stands in the text of its chain, and none of several is all of it. -/
theorem Piece.infix_chainText {j : Junction} {k : Nat} {ps : List (Piece k)} {p : Piece k}
    (h : p ∈ ps) : p.text <:+: chainText j ps ∧
      (2 ≤ ps.length → p.text.length < (chainText j ps).length) := by
  have hraw (p : Piece k) : p.text <:+: p.raw := ⟨p.before, p.after, by simp [Piece.raw]⟩
  induction ps with
  | nil => cases h
  | cons q ps ih =>
    cases ps with
    | nil =>
      rw [List.mem_singleton.1 h]
      exact ⟨by simpa [chainText, List.intercalate] using hraw q, fun h => by simp at h⟩
    | cons q' ps =>
      have hsym : 0 < j.symbol.length := by simp [Junction.symbol]
      rw [chainText_cons]
      rcases List.mem_cons.1 h with rfl | h
      · refine ⟨(hraw p).trans (List.prefix_append _ _).isInfix, fun _ => ?_⟩
        have := (hraw p).length_le
        simp only [List.length_append]
        omega
      · have hin := (ih h).1
        refine ⟨hin.trans ?_, fun _ => ?_⟩
        · rw [← List.append_assoc]
          exact (List.suffix_append _ _).isInfix
        · have := hin.length_le
          simp only [List.length_append]
          omega

/-- Every conditional inside a text is complete. -/
theorem Reads.paired {k : Nat} {e : Expression} {t : List Char} (h : Reads k e t) : Paired t := by
  have hflat {e : Expression} {t : List Char} (h : Reads 1 e t) : Paired t := by
    have hs : Sealed ['?', ':'] t := h.sealed (by decide) (fun _ => by decide)
    exact hs.paired (by simp) (by simp)
  have hpad {p : List Char} (hp : Blank p) : Paired p := by
    have hs : Sealed ['?', ':'] p := sealed_of_blank hp (by decide)
    exact hs.paired (by simp) (by simp)
  induction h with
  | path _ hp hx => exact hflat (.path (by omega) hp hx)
  | str _ hq => exact hflat (.str (by omega) hq)
  | markup _ hm => exact hflat (.markup (by omega) hm)
  | absent _ hx => exact hflat (.absent (by omega) hx)
  | compare _ hx hv hl hp hq => exact hflat (.compare (by omega) hx hv hl hp hq)
  | flipped _ hx hv hl hp hq => exact hflat (.flipped (by omega) hx hv hl hp hq)
  | not _ hp he _ => exact hflat (.not (by omega) hp he)
  | paren _ he hp hq _ => exact hflat (.paren (by omega) he hp hq)
  | @join k j a b s p q t _ ha hb hp hq _ _ =>
    exact hflat (.join (by cases j <;> decide) ha hb hp hq)
  | @cond c a b s x y p q r u hc ha hb hp hq hr hu ihc iha ihb =>
    have htext : s ++ (p ++ '?' :: (q ++ (x ++ (r ++ ':' :: (u ++ y))))) =
        (s ++ p) ++ '?' :: ((q ++ (x ++ r)) ++ ':' :: (u ++ y)) := by simp
    rw [htext]
    exact (ihc.append (hpad hp)).conditional ((hpad hq).append (iha.append (hpad hr)))
      ((hpad hu).append ihb) (hc.edged.endsPlain hp) (ha.edged.startsPlain hq r)

/-! ### The ways a text comes apart -/

/-- What the scans make of a text that is no group: the parts of a conditional, the operands of the
lower operator there is, or a whole. -/
inductive View (e : Expression) (t : List Char) : Prop where
  | cond {c a b : Expression} {s x y : List Char} : e = .cond c a b →
      splitTernary? t = some (s, x, y) → Reads 1 c s → Reads 0 a x → Reads 0 b y →
      (∀ r ∈ [s, x, y], r <:+: t ∧ r.length < t.length) → View e t
  | chain {j : Junction} {first : Piece (j.level + 1)} {rest : List (Piece (j.level + 1))} :
      rest ≠ [] → e = joined j first rest → splitTernary? t = none →
      containsTopLevel t "??".toList = false →
      (∀ i : Junction, i.level < j.level → containsTopLevel t i.symbol = false) →
      containsTopLevel t j.symbol = true →
      splitTopLevel t j.symbol = (first :: rest).map Piece.text →
      (∀ p ∈ first :: rest, p.text <:+: t ∧ p.text.length < t.length) → View e t
  | whole : splitTernary? t = none → containsTopLevel t "??".toList = false →
      (∀ i : Junction, containsTopLevel t i.symbol = false) → Reads 3 e t → isGroup '(' t = false →
      View e t

theorem Junction.cutting (j : Junction) : Cutting [j.char] j.char :=
  ⟨by simp, by cases j <;> decide, by cases j <;> decide⟩

/-- Texts above the level of an operator do not show it. -/
theorem Reads.containsTopLevel_eq_false {j : Junction} {k : Nat} {e : Expression} {t : List Char}
    (h : Reads k e t) (hk : j.level < k) : containsTopLevel t j.symbol = false := by
  have hs : Sealed [j.char] t := by
    refine h.sealed (fun c hc => clear_subset hk ?_) (fun _ c hc => ?_)
    all_goals
      rw [List.mem_singleton.1 hc]
      cases j <;> decide
  exact hs.containsTopLevel_eq_false j.cutting [j.char]

theorem Reads.splitTernary?_eq_none {k : Nat} {e : Expression} {t : List Char} (h : Reads k e t)
    (hk : 1 ≤ k) : splitTernary? t = none ∧ containsTopLevel t "??".toList = false := by
  have hs : Sealed ['?'] t :=
    h.sealed (fun c hc => clear_subset hk (by rw [List.mem_singleton.1 hc]; decide)) (fun _ => by decide)
  exact ⟨hs.splitTernary?_eq_none (by simp), hs.containsTopLevel_coalesce (by simp)⟩

/-- An operand holds no operator of its own level outside brackets, blanks included. -/
theorem Piece.sealed {j : Junction} (p : Piece (j.level + 1)) : Sealed [j.char] p.raw := by
  have hpad {w : List Char} (hw : Blank w) : Sealed [j.char] w :=
    sealed_of_blank hw (by cases j <;> decide)
  have hs : Sealed [j.char] p.text := by
    refine p.reads.sealed (fun c hc => ?_) (fun _ c hc => ?_)
    all_goals
      rw [List.mem_singleton.1 hc]
      cases j <;> decide
  exact (hpad p.blank_before).append (hs.append (hpad p.blank_after))

/-- A chain comes apart into its operands. -/
theorem splitTopLevel_chainText {j : Junction} (ps : List (Piece (j.level + 1))) :
    splitTopLevel (chainText j ps) j.symbol = ps.map Piece.text := by
  have hs : ∀ r ∈ ps.map Piece.raw, Sealed [j.char] r := by
    intro r hr
    obtain ⟨p, _, rfl⟩ := List.mem_map.1 hr
    exact p.sealed
  have hord : ∀ d ∈ [j.char], isOrdinary d = true := by cases j <;> decide
  have htrim : (ps.map Piece.raw).map trim = ps.map Piece.text := by
    rw [List.map_map]
    exact List.map_congr_left fun p _ => p.trim_raw
  have hne : (ps.map Piece.text).filter (!·.isEmpty) = ps.map Piece.text := by
    rw [List.filter_eq_self]
    intro r hr
    obtain ⟨p, _, rfl⟩ := List.mem_map.1 hr
    simpa using p.reads.edged.ne_nil
  have hcut := splitTopLevel_intercalate j.cutting hord hs
  rw [htrim, hne] at hcut
  exact hcut

theorem containsTopLevel_chainText {j : Junction} (p q : Piece (j.level + 1))
    (ps : List (Piece (j.level + 1))) : containsTopLevel (chainText j (p :: q :: ps)) j.symbol = true := by
  rw [chainText_cons]
  exact p.sealed.containsTopLevel_append j.cutting [j.char] (chainText j (q :: ps))

private theorem view_or_next {j : Junction} {e : Expression} {t : List Char}
    (h : Reads j.level e t) : View e t ∨ Reads (j.level + 1) e t := by
  have hlevel : 1 ≤ j.level := by cases j <;> decide
  obtain ⟨first, rest, he, ht⟩ := h.chain rfl blank_nil
  rw [List.append_nil] at ht
  cases rest with
  | nil =>
    have hraw : t = first.raw := by simpa [chainText, List.intercalate] using ht
    have htext : t = first.text := by rw [← first.trim_raw, ← hraw, h.edged.trimmed.trim_eq]
    rw [he, htext]
    exact .inr first.reads
  | cons q rest =>
    obtain ⟨hternary, hcoalesce⟩ := h.splitTernary?_eq_none hlevel
    refine .inl (.chain (by simp) he hternary hcoalesce (fun i hi => h.containsTopLevel_eq_false hi)
      ?_ ?_ fun p hp => ?_)
    · rw [ht]
      exact containsTopLevel_chainText first q rest
    · rw [ht]
      exact splitTopLevel_chainText (first :: q :: rest)
    · obtain ⟨hin, hlen⟩ := Piece.infix_chainText (j := j) hp
      rw [ht]
      exact ⟨hin, hlen (by simp)⟩

/-- A conditional comes apart into its parts without the blanks around them. -/
theorem splitTernary?_parts {s x y p q r u : List Char} (hs : Edged s) (hsealed : Sealed ['?'] s)
    (hx : Edged x) (hpaired : Paired x) (hy : Edged y) (hp : Blank p) (hq : Blank q) (hr : Blank r)
    (hu : Blank u) :
    splitTernary? (s ++ (p ++ '?' :: (q ++ (x ++ (r ++ ':' :: (u ++ y)))))) = some (s, x, y) := by
  have htext : s ++ (p ++ '?' :: (q ++ (x ++ (r ++ ':' :: (u ++ y))))) =
      (s ++ p) ++ '?' :: ((q ++ (x ++ r)) ++ ':' :: (u ++ y)) := by simp
  have hfront : Sealed ['?'] (s ++ p) := hsealed.append (sealed_of_blank hp (by decide))
  have hpad {w : List Char} (hw : Blank w) : Paired w := by
    have hblank : Sealed ['?', ':'] w := sealed_of_blank hw (by decide)
    exact hblank.paired (by simp) (by simp)
  have hs' : trim (s ++ p) = s := by simpa using trim_pad blank_nil hs.trimmed hp
  have hx' : trim (q ++ (x ++ r)) = x := trim_pad hq hx.trimmed hr
  have hy' : trim (u ++ y) = y := by simpa using trim_pad hu hy.trimmed blank_nil
  have hsplit := splitTernary?_conditional hfront (by simp)
    ((hpad hq).append (hpaired.append (hpad hr))) (hs.endsPlain hp) (hx.startsPlain hq r)
    (by rw [hs']; exact hs.ne_nil) (by rw [hx']; exact hx.ne_nil) (by rw [hy']; exact hy.ne_nil)
  rwa [hs', hx', hy', ← htext] at hsplit

/-- The scans follow the expression. -/
theorem Reads.view {e : Expression} {t : List Char} (h : Reads 0 e t)
    (hg : isGroup '(' t = false) : View e t := by
  have hflat (h : Reads 1 e t) : View e t := by
    obtain hv | h := view_or_next (j := .disj) h
    · exact hv
    obtain hv | h := view_or_next (j := .conj) h
    · exact hv
    obtain ⟨hternary, hcoalesce⟩ := h.splitTernary?_eq_none (by decide)
    exact .whole hternary hcoalesce
      (fun i => h.containsTopLevel_eq_false (by cases i <;> decide)) h hg
  cases h with
  | path hk hp hx => exact hflat (.path (by omega) hp hx)
  | str hk hq => exact hflat (.str (by omega) hq)
  | markup hk hm => exact hflat (.markup (by omega) hm)
  | absent hk hx => exact hflat (.absent (by omega) hx)
  | compare hk hx hv hl hp hq => exact hflat (.compare (by omega) hx hv hl hp hq)
  | flipped hk hx hv hl hp hq => exact hflat (.flipped (by omega) hx hv hl hp hq)
  | not hk hp he => exact hflat (.not (by omega) hp he)
  | paren hk he hp hq => exact hflat (.paren (by omega) he hp hq)
  | @join _ j a b s p q t hk ha hb hp hq =>
    exact hflat (.join (by cases j <;> decide) ha hb hp hq)
  | @cond c a b s x y p q r u hc ha hb hp hq hr hu =>
    have hsplit := splitTernary?_parts hc.edged
      (hc.sealed (by decide) (fun _ => by decide)) ha.edged ha.paired hb.edged hp hq hr hu
    refine .cond rfl hsplit hc ha hb ?_
    simp only [List.mem_cons, List.not_mem_nil, or_false, forall_eq_or_imp, forall_eq]
    refine ⟨⟨⟨[], p ++ '?' :: (q ++ (x ++ (r ++ ':' :: (u ++ y)))), by simp⟩, ?_⟩,
      ⟨⟨s ++ p ++ '?' :: q, r ++ ':' :: (u ++ y), by simp⟩, ?_⟩,
      ⟨⟨s ++ p ++ '?' :: (q ++ (x ++ (r ++ ':' :: u))), [], by simp⟩, ?_⟩⟩
    all_goals
      simp only [List.length_append, List.length_cons]
      omega

/-! ### One reading -/

/-- What a text stands for that no operator takes apart and no `!` starts. -/
def leaf? (t : List Char) : Option Expression :=
  if t.head? = some '<' then
    (Content.wholeElement? t).map fun e => .markup ⟨e.name, e.props, e.spreads⟩
  else match inequality? t, equality? t, stringLiteral? t with
  | some (x, v), _, _ => some (.compare true x v)
  | none, some (x, v), _ => some (.compare false x v)
  | none, none, some v => some (.str (String.ofList v))
  | none, none, none =>
    some (if String.ofList t ∈ absentWords then .absent else .path (String.ofList t))

/-- What no operator takes apart is read as it stands. -/
theorem leaf?_eq {e : Expression} {t : List Char} (h : Reads 3 e t) (hg : isGroup '(' t = false)
    (hn : t.head? ≠ some '!') : leaf? t = some e := by
  have ht := h.edged.trimmed
  -- texts without operators of comparisons
  have hplain (hs : Sealed ['!', '='] t) : inequality? t = none ∧ equality? t = none := by
    have hbang : Cutting ['!', '='] '!' := ⟨by simp, by decide, by decide⟩
    exact ⟨inequality?_eq_none ht hg (hs.findTopLevel?_eq_none hbang ['=', '='])
      (hs.findTopLevel?_eq_none hbang ['=']), equality?_eq_none ht hg (hs.mono (by decide))⟩
  cases h with
  | @path _ x _ hp hx =>
    have hhead : x.toList.head? ≠ some '<' := hp.head?_ne (by decide)
    obtain ⟨hi, he⟩ := hplain (hp.sealed (by decide))
    have hw : x ∉ absentWords := fun hm => hx (of_mem_absentWords x hm).2
    simp [leaf?, hhead, hi, he, hp.stringLiteral?_eq_none, hw]
  | @str _ v _ hk hq =>
    have hhead : t.head? ≠ some '<' := by simpa using hq.head?_ne (by decide) []
    obtain ⟨hi, he⟩ := hplain hq.sealed
    simp [leaf?, hhead, hi, he, hq.stringLiteral?_eq]
  | markup hk hm =>
    obtain ⟨el, hel, hu⟩ := hm.wholeElement?
    simp [leaf?, hm.head, hel, hu]
  | @absent _ w hk hw =>
    obtain ⟨hi, he⟩ := hplain (sealed_absent (by decide) hw)
    have hname := (of_mem_absentWords w hw).1
    have hhead : w.toList.head? ≠ some '<' := by simpa using head?_name_ne hname (by decide) []
    simp [leaf?, hhead, hi, he, (IsPath.name hname).stringLiteral?_eq_none, hw]
  | @compare _ negated x v p q l hk hx hw hv hp hq =>
    obtain ⟨hi, he⟩ := (Reads.compare hk hx hw hv hp hq).comparison_eq hg
    have hhead := head?_name_ne (d := '<') hx (by decide) (p ++ (comparison negated ++ (q ++ l)))
    rw [leaf?, if_neg hhead, hi, he]
    cases negated <;> simp
  | @flipped _ negated x v p q l hk hx hw hv hp hq =>
    obtain ⟨hi, he⟩ := (Reads.flipped hk hx hw hv hp hq).comparison_eq hg
    have hhead := hv.head?_ne (d := '<') (by decide) (by decide) (by decide)
      (p ++ (comparison negated ++ (q ++ x.toList)))
    rw [leaf?, if_neg hhead, hi, he]
    cases negated <;> simp
  | not hk hp he => exact absurd rfl hn
  | @join _ j _ _ _ _ _ _ hk =>
    have : j.level ≤ 2 := by cases j <;> decide
    omega
  | paren hk he hp hq =>
    rw [isGroup_paren he.nested hp hq] at hg
    cases hg

/-- Only a negation starts with `!`. -/
theorem Reads.not_of_head {e : Expression} {t : List Char} (h : Reads 3 e t)
    (hg : isGroup '(' t = false) (hn : t.head? = some '!') :
    ∃ e' p s, e = .not e' ∧ t = '!' :: (p ++ s) ∧ Blank p ∧ Reads 4 e' s := by
  cases h with
  | path hk hp hx => exact absurd hn (hp.head?_ne (by decide))
  | str hk hq => exact absurd hn (by simpa using hq.head?_ne (by decide) [])
  | markup hk hm => simp [hm.head] at hn
  | absent hk hw =>
    exact absurd hn (by simpa using head?_name_ne (of_mem_absentWords _ hw).1 (by decide) [])
  | compare hk hx hw hv hp hq => exact absurd hn (head?_name_ne hx (by decide) _)
  | flipped hk hx hw hv hp hq =>
    exact absurd hn (hv.head?_ne (by decide) (by decide) (by decide) _)
  | @not k e p s hk hp he => exact ⟨e, p, s, rfl, rfl, hp, he⟩
  | @join _ j _ _ _ _ _ _ hk =>
    have : j.level ≤ 2 := by cases j <;> decide
    omega
  | paren hk he hp hq =>
    rw [isGroup_paren he.nested hp hq] at hg
    cases hg

theorem joined_eq (j : Junction) {k : Nat} (first : Piece k) (rest : List (Piece k)) :
    joined j first rest = (rest.map Piece.expr).foldl (.join j) first.expr := by
  rw [joined, List.foldl_map]

private theorem map_expr_congr {k l : Nat} {ps : List (Piece k)} {qs : List (Piece l)}
    (ht : ps.map Piece.text = qs.map Piece.text)
    (h : ∀ p ∈ ps, ∀ q ∈ qs, p.text = q.text → p.expr = q.expr) :
    ps.map Piece.expr = qs.map Piece.expr := by
  induction ps generalizing qs with
  | nil =>
    cases qs with
    | nil => rfl
    | cons q qs => simp at ht
  | cons p ps ih =>
    cases qs with
    | nil => simp at ht
    | cons q qs =>
      simp only [List.map_cons, List.cons.injEq] at ht ⊢
      exact ⟨h p (by simp) q (by simp) ht.1,
        ih ht.2 fun p hp q hq => h p (by simp [hp]) q (by simp [hq])⟩

/-- A text has one reading at most. -/
theorem Reads.unique {e e' : Expression} {t : List Char} (h : Reads 0 e t) (h' : Reads 0 e' t) :
    e = e' := by
  induction hlen : t.length using Nat.strongRecOn generalizing e e' t with
  | ind n ih =>
    subst hlen
    obtain ⟨hr, hg, hin⟩ := h.strip
    obtain ⟨hr', -, -⟩ := h'.strip
    have hshort := hin.length_le
    generalize stripOuterParens t = s at hr hr' hg hshort
    cases hr.view hg with
    | cond he hs hc ha hb hp =>
      cases hr'.view hg with
      | cond he' hs' hc' ha' hb' _ =>
        simp only [hs, Option.some.injEq, Prod.mk.injEq] at hs'
        obtain ⟨rfl, rfl, rfl⟩ := hs'
        have hlt {r : List Char} (hr : r ∈ _) := Nat.lt_of_lt_of_le (hp r hr).2 hshort
        rw [he, he', ih _ (hlt (by simp)) (hc.mono (by omega)) (hc'.mono (by omega)) rfl,
          ih _ (hlt (by simp)) ha ha' rfl, ih _ (hlt (by simp)) hb hb' rfl]
      | chain _ _ hs' => simp [hs] at hs'
      | whole hs' => simp [hs] at hs'
    | @chain j first rest hne he hs _ hlow htop hsplit hp =>
      cases hr'.view hg with
      | cond _ hs' => simp [hs] at hs'
      | @chain j' first' rest' hne' he' hs' _ hlow' htop' hsplit' _ =>
        have hj : j = j' := by
          rcases Nat.lt_trichotomy j.level j'.level with hl | hl | hl
          · simp [hlow' j hl] at htop
          · cases j <;> cases j' <;> simp_all [Junction.level]
          · simp [hlow j' hl] at htop'
        subst hj
        have hexpr := map_expr_congr (hsplit.symm.trans hsplit') fun p hmem q _ hpq =>
          ih _ (Nat.lt_of_lt_of_le (hp p hmem).2 hshort) (p.reads.mono (by omega))
            (hpq ▸ q.reads.mono (by omega)) rfl
        simp only [List.map_cons, List.cons.injEq] at hexpr
        rw [he, he', joined_eq, joined_eq, hexpr.1, hexpr.2]
      | whole _ _ hnone => simp [hnone j] at htop
    | whole hs _ hnone hw _ =>
      cases hr'.view hg with
      | cond _ hs' => simp [hs] at hs'
      | @chain j _ _ _ _ _ _ _ htop => simp [hnone j] at htop
      | whole _ _ _ hw' _ =>
        by_cases hn : s.head? = some '!'
        · obtain ⟨a, p, u, rfl, rfl, hp, ha⟩ := hw.not_of_head hg hn
          obtain ⟨a', p', u', rfl, htext, hp', ha'⟩ := hw'.not_of_head hg hn
          have hu : u = u' := by
            have hcut {p u : List Char} (hp : Blank p) (hu : Trimmed u) : trim (p ++ u) = u := by
              simpa using trim_pad hp hu blank_nil
            rw [← hcut hp ha.edged.trimmed, (List.cons.inj htext).2, hcut hp' ha'.edged.trimmed]
          subst hu
          have hlt : u.length < t.length := by
            simp only [List.length_cons, List.length_append] at hshort
            omega
          rw [ih _ hlt (ha.mono (by omega)) (ha'.mono (by omega)) rfl]
        · have hl := leaf?_eq hw hg hn
          rw [leaf?_eq hw' hg hn] at hl
          exact (Option.some.inj hl).symm

/-- Code means the expression it is read as. -/
theorem Reads.meaning?_eq {k : Nat} {e : Expression} {code : String} (h : Reads k e code.toList) :
    meaning? code = some e := by
  have hex : ∃ e, Reads 0 e code.toList := ⟨e, h.mono (Nat.zero_le k)⟩
  rw [meaning?, dif_pos hex, Reads.unique hex.choose_spec (h.mono (Nat.zero_le k))]

theorem Reads.codeTruth_eq {k : Nat} {e : Expression} {code : String} (h : Reads k e code.toList)
    (env : String → Json) : codeTruth env code = e.truth env := by
  rw [codeTruth, h.meaning?_eq]
  rfl

/-! ### Texts put together again -/

theorem Reads.negate {e : Expression} {t : List Char} (h : Reads 0 e t) :
    Reads 4 (.not e) ("!(".toList ++ t ++ [')']) := by
  have hparen : Reads 4 e ('(' :: ([] ++ (t ++ ([] ++ [')'])))) :=
    .paren (by omega) h blank_nil blank_nil
  have hnot : Reads 4 (.not e) ('!' :: ([] ++ ('(' :: ([] ++ (t ++ ([] ++ [')'])))))) :=
    .not (by omega) blank_nil hparen
  simpa using hnot

theorem intercalate_cons (sep r : List Char) (rs : List (List Char)) :
    sep.intercalate (r :: rs) = r ++ (rs.map (sep ++ ·)).flatten := by
  induction rs generalizing r with
  | nil => simp [List.intercalate]
  | cons s rs ih =>
    have := ih s
    simp only [List.intercalate, List.intersperse_cons_cons, List.flatten_cons, List.map_cons] at this ⊢
    rw [this, List.append_assoc]

/-- Operands of `&&` joined anew read as they did. -/
theorem reads_rejoined (first : Piece (Junction.conj.level + 1))
    (rest : List (Piece (Junction.conj.level + 1))) :
    Reads 2 (joined .conj first rest)
      (" && ".toList.intercalate ((first :: rest).map Piece.text)) := by
  have hrun {e : Expression} {t : List Char} (h : Reads 2 e t) :
      Reads 2 (rest.foldl (fun e p => .join .conj e p.expr) e)
        (t ++ (rest.map fun p => " && ".toList ++ p.text).flatten) := by
    induction rest generalizing e t with
    | nil => simpa using h
    | cons p rest ih =>
      have hblank : Blank [' '] := by simp [Blank, isBlank]
      have hstep : Reads 2 (.join .conj e p.expr)
          (t ++ ([' '] ++ (Junction.conj.symbol ++ ([' '] ++ p.text)))) :=
        .join (Nat.le_refl 2) h p.reads hblank hblank
      have hnext := ih hstep
      simpa [Junction.symbol, Junction.char] using hnext
  rw [List.map_cons, intercalate_cons, List.map_map]
  exact hrun (first.reads.mono (by decide))

/-- What holds of a junction when it holds of both sides holds of a chain when it holds of all
operands. -/
theorem joined_all {f : Expression → Bool} {j : Junction} {k : Nat}
    (h : ∀ a b, f (.join j a b) = (f a && f b)) (first : Piece k) (rest : List (Piece k)) :
    f (joined j first rest) = (first :: rest).all (f ·.expr) := by
  have hrun (e : Expression) : f (rest.foldl (fun e p => .join j e p.expr) e) =
      (f e && rest.all (f ·.expr)) := by
    induction rest generalizing e with
    | nil => simp
    | cons p rest ih => simp [ih, h, Bool.and_assoc]
  exact hrun first.expr

theorem truth_joined {k : Nat} (env : String → Json) (first : Piece k) (rest : List (Piece k)) :
    (joined .conj first rest).truth env = (first :: rest).all (·.expr.truth env) ∧
      (joined .disj first rest).truth env = (first :: rest).any (·.expr.truth env) := by
  refine ⟨joined_all (fun _ _ => rfl) first rest, ?_⟩
  have hnone := joined_all (f := fun e => !e.truth env) (j := .disj)
    (fun a b => by simp [Expression.truth]) first rest
  rw [← Bool.not_inj_iff, hnone, List.not_any_eq_all_not]

/-- What has no blank and no sign in it is in no rejoined text unless it is in one of its parts. -/
theorem not_infix_rejoined {w : List Char} (hne : w ≠ []) (hw : ' ' ∉ w ∧ '&' ∉ w)
    {ts : List (List Char)} (h : ∀ t ∈ ts, ¬ w <:+: t) : ¬ w <:+: " && ".toList.intercalate ts := by
  have hnil : ¬ w <:+: [] := fun hi => hne (List.infix_nil.1 hi)
  induction ts with
  | nil => simpa [List.intercalate] using hnil
  | cons t ts ih =>
    cases ts with
    | nil => simpa [List.intercalate] using h t (by simp)
    | cons u ts =>
      have hrest := ih fun t ht => h t (by simp [ht])
      intro hi
      have htext : " && ".toList.intercalate (t :: u :: ts) =
          t ++ ' ' :: ([] ++ '&' :: ([] ++ '&' :: ([] ++ ' ' :: " && ".toList.intercalate (u :: ts)))) := by
        simp [List.intercalate]
      rw [htext] at hi
      rcases infix_append_cons hw.1 hi with hi | hi
      · exact h t (by simp) hi
      have hi := (infix_append_cons hw.2 hi).resolve_left hnil
      have hi := (infix_append_cons hw.2 hi).resolve_left hnil
      exact hrest ((infix_append_cons hw.1 hi).resolve_left hnil)

theorem not_props_rejoined {ts : List (List Char)} (h : ∀ t ∈ ts, ¬ propsHead <:+: t) :
    ¬ propsHead <:+: " && ".toList.intercalate ts :=
  not_infix_rejoined (by decide) (by decide) h

end JsxToJinja.Code
