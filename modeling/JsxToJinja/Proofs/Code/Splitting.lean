import JsxToJinja.Proofs.Code.TopLevel

/-! Cutting a text at a separator: nothing is left out but blanks and separators, and a piece is
scanned like a text of its own, so it does not come apart again. -/
namespace JsxToJinja.Code
open JsxToJinja.Text

/-- A separator is made of ordinary characters: it takes part in no literal and no bracket. -/
structure IsSeparator (sep : List Char) : Prop where
  ne_nil : sep ≠ []
  ordinary : ∀ c ∈ sep, isOrdinary c = true

/-- The text is the pieces in their order, with separators between them. A piece is trimmed and not
empty, blanks may stand around it, and between two separators there may be blanks alone. -/
inductive Spread (sep : List Char) : List (List Char) → List Char → Prop where
  | blank {u : List Char} : Blank u → Spread sep [] u
  | piece {u p v : List Char} : Blank u → Trimmed p → p ≠ [] → Blank v →
      Spread sep [p] (u ++ (p ++ v))
  | skip {u t : List Char} {ps : List (List Char)} : Blank u → Spread sep ps t →
      Spread sep ps (u ++ (sep ++ t))
  | next {u p v t : List Char} {ps : List (List Char)} : Blank u → Trimmed p → p ≠ [] → Blank v →
      Spread sep ps t → Spread sep (p :: ps) (u ++ (p ++ (v ++ (sep ++ t))))

theorem blank_of_trim_eq_nil {r : List Char} (h : trim r = []) : Blank r := by
  obtain ⟨u, v, hu, hv, he⟩ := exists_pad r
  rw [he, h]
  exact hu.append hv

/-- Trimming the parts between separators and leaving out the blank ones gives the pieces. -/
theorem spread_intercalate (sep r : List Char) (rs : List (List Char)) :
    Spread sep (((r :: rs).map trim).filter (!·.isEmpty)) (sep.intercalate (r :: rs)) := by
  induction rs generalizing r with
  | nil =>
    obtain ⟨u, v, hu, hv, he⟩ := exists_pad r
    by_cases hr : trim r = []
    · have hspread : Spread sep [] r := .blank (blank_of_trim_eq_nil hr)
      simpa [hr] using hspread
    · have hspread : Spread sep [trim r] _ := .piece hu (trimmed_trim r) hr hv
      rw [← he] at hspread
      simpa [hr] using hspread
  | cons s rs ih =>
    obtain ⟨u, v, hu, hv, he⟩ := exists_pad r
    rw [List.intercalate_cons_cons]
    by_cases hr : trim r = []
    · have hspread := Spread.skip (blank_of_trim_eq_nil hr) (ih s)
      simpa [hr] using hspread
    · have hspread := Spread.next hu (trimmed_trim r) hr hv (ih s)
      have htext := congrArg (· ++ sep ++ sep.intercalate (s :: rs)) he
      simp only [List.append_assoc] at htext
      rw [List.map_cons, List.filter_cons_of_pos (by simpa using hr), List.append_assoc, htext]
      exact hspread

/-! ### Scanning one part after another -/

/-- The quote of a literal that the scan stands in is a quote. -/
def Mode.IsProper : Mode → Prop
  | .code => True
  | .quoted q => isQuote q = true
  | .escaped q => isQuote q = true

/-- What a scan does at one character is settled by the mode, the depth and that character. -/
theorem marksFrom_cons (mode : Mode) (d : Nat) (c : Char) : ∃ mode' d',
    (mode.IsProper → mode'.IsProper) ∧
      ((∀ i t, marksFrom mode d i (c :: t) = marksFrom mode' d' (i + 1) t) ∨
        ∃ e, ∀ i t, marksFrom mode d i (c :: t) = ⟨i, c, e, c :: t⟩ :: marksFrom mode' d' (i + 1) t) := by
  cases mode with
  | escaped q => exact ⟨.quoted q, d, id, .inl fun i t => rfl⟩
  | quoted q =>
    by_cases hs : (c == '\\') = true
    · exact ⟨.escaped q, d, id, .inl fun i t => by rw [marksFrom, if_pos hs]⟩
    · by_cases hq : (c == q) = true
      · exact ⟨.code, d, fun _ => trivial, .inr ⟨d, fun i t => by
          rw [marksFrom, if_neg hs, if_pos hq]⟩⟩
      · exact ⟨.quoted q, d, id, .inl fun i t => by rw [marksFrom, if_neg hs, if_neg hq]⟩
  | code =>
    by_cases hq : isQuote c = true
    · exact ⟨.quoted c, d, fun _ => hq, .inr ⟨d, fun i t => by rw [marksFrom, if_pos hq]⟩⟩
    · by_cases ho : isOpening c = true
      · exact ⟨.code, d + 1, id, .inr ⟨d, fun i t => by rw [marksFrom, if_neg hq, if_pos ho]⟩⟩
      · by_cases hc : isClosing c = true
        · exact ⟨.code, d - 1, id, .inr ⟨d - 1, fun i t => by
            rw [marksFrom, if_neg hq, if_neg ho, if_pos hc]⟩⟩
        · exact ⟨.code, d, id, .inr ⟨d, fun i t => by
            rw [marksFrom, if_neg hq, if_neg ho, if_neg hc]⟩⟩

/-- The mark in a text that goes on behind the text it was made in. -/
def Mark.extend (rest : List Char) (m : Mark) : Mark := { m with rest := m.rest ++ rest }

theorem Mark.starts_extend {m : Mark} {n : List Char} (h : m.starts n = true) (rest : List Char) :
    (m.extend rest).starts n = true := by
  simp only [Mark.starts, Mark.extend, Bool.and_eq_true, startsWith, List.isPrefixOf_iff_prefix] at h ⊢
  exact ⟨h.1, h.2.trans (List.prefix_append _ _)⟩

/-- Behind the marks of a front a scan goes on in some mode and at some depth. -/
theorem exists_marksFrom_append (mode : Mode) (d : Nat) (w : List Char) : ∃ mode' d',
    (mode.IsProper → mode'.IsProper) ∧ ∀ i rest,
      marksFrom mode d i (w ++ rest) =
        (marksFrom mode d i w).map (.extend rest) ++ marksFrom mode' d' (i + w.length) rest := by
  induction w generalizing mode d with
  | nil => exact ⟨mode, d, id, fun i rest => by cases mode <;> rfl⟩
  | cons c w ih =>
    obtain ⟨mode', d', hproper, hstep⟩ := marksFrom_cons mode d c
    obtain ⟨mode'', d'', hproper', hrest⟩ := ih mode' d'
    refine ⟨mode'', d'', hproper' ∘ hproper, fun i rest => ?_⟩
    have hlen : i + (c :: w).length = i + 1 + w.length := by rw [List.length_cons]; omega
    rcases hstep with hstep | ⟨e, hstep⟩
    · rw [List.cons_append, hstep, hstep, hrest, hlen]
    · rw [List.cons_append, hstep, hstep, hrest, hlen]
      rfl

/-- No mark of the text starts `n`. -/
def Whole (n : List Char) (mode : Mode) (d i : Nat) (w : List Char) : Prop :=
  ∀ m ∈ marksFrom mode d i w, m.starts n = false

/-- Where the text begins does not matter. -/
theorem Whole.move {n : List Char} {mode : Mode} {d i : Nat} {w : List Char}
    (h : Whole n mode d i w) (j : Nat) : Whole n mode d j w := by
  induction w generalizing mode d i j with
  | nil =>
    intro m hm
    cases mode <;> cases hm
  | cons c w ih =>
    obtain ⟨mode', d', -, hstep | ⟨e, hstep⟩⟩ := marksFrom_cons mode d c
    · rw [Whole, hstep] at h ⊢
      exact ih h (j + 1)
    · rw [Whole, hstep] at h ⊢
      intro m hm
      rcases List.mem_cons.1 hm with rfl | hm
      · exact h ⟨i, c, e, c :: w⟩ List.mem_cons_self
      · exact ih (fun m hm => h m (List.mem_cons_of_mem _ hm)) (j + 1) m hm

/-- A text without a separator has none in its front. -/
theorem Whole.front {n : List Char} {mode : Mode} {d i : Nat} {w rest : List Char}
    (h : Whole n mode d i (w ++ rest)) : Whole n mode d i w := by
  obtain ⟨mode', d', -, he⟩ := exists_marksFrom_append mode d w
  intro m hm
  rw [← Bool.not_eq_true]
  intro hs
  have hmem : m.extend rest ∈ marksFrom mode d i (w ++ rest) := by
    rw [he]
    exact List.mem_append_left _ (List.mem_map_of_mem hm)
  exact absurd (Mark.starts_extend hs rest) (by simp [h _ hmem])

theorem Whole.behind_blank {n : List Char} {i : Nat} {u w : List Char} (hu : Blank u)
    (h : Whole n .code 0 i (u ++ w)) : Whole n .code 0 i w := by
  obtain ⟨ms, he, -⟩ := (sealed_of_blank hu (by simp) : Sealed [] u).marksFrom_append 0 i w
  rw [Whole, he] at h
  exact (show Whole n .code 0 (i + u.length) w from
    fun m hm => h m (List.mem_append_right _ hm)).move i

theorem Whole.splitTopLevel_eq {sep p : List Char} (hne : sep ≠ []) (h : Whole sep .code 0 0 p)
    (htrim : Trimmed p) (hp : p ≠ []) : splitTopLevel p sep = [p] := by
  have hcut : cutAt p sep (marks p ++ []) 0 = _ := cutAt_append (fun m hm => .inr (h m hm)) []
  rw [List.append_nil] at hcut
  simp [splitTopLevel, hne, hcut, cutAt, htrim.trim_eq, hp]

/-- An ordinary character at the front is marked in code alone, at the depth the scan stands at. -/
theorem mode_of_mark_at_front {mode : Mode} {d i : Nat} {c : Char} {t : List Char} {m : Mark}
    (hproper : mode.IsProper) (hm : m ∈ marksFrom mode d i (c :: t)) (hi : m.index = i)
    (ho : isOrdinary c = true) : mode = .code ∧ m.depth = d := by
  have hlater {mode' : Mode} {d' : Nat} (h : m ∈ marksFrom mode' d' (i + 1) t) : False := by
    have := (rest_of_mem_marksFrom h).1
    omega
  cases mode with
  | escaped q => exact (hlater hm).elim
  | quoted q =>
    rw [marksFrom] at hm
    split at hm
    · exact (hlater hm).elim
    · split at hm
      · rename_i hq
        rw [beq_iff_eq.1 hq, isOrdinary, show isQuote q = true from hproper] at ho
        cases ho
      · exact (hlater hm).elim
  | code =>
    rw [marksFrom_ordinary ho] at hm
    rcases List.mem_cons.1 hm with rfl | hm
    · exact ⟨rfl, rfl⟩
    · exact (hlater hm).elim

/-- Where a separator is found, the text is a whole front, the separator, and a rest that is scanned
like a text of its own. -/
theorem exists_first_cut {c : Char} {n u : List Char} (hc : isOrdinary c = true)
    (hn : ∀ d ∈ n, isOrdinary d = true) (i : Nat) (h : ¬ Whole (c :: n) .code 0 i u) :
    ∃ r rest ms ns, u = r ++ c :: (n ++ rest) ∧ Whole (c :: n) .code 0 i r ∧
      marksFrom .code 0 i u = ms ++ ⟨i + r.length, c, 0, c :: (n ++ rest)⟩ ::
          (ns ++ marksFrom .code 0 (i + r.length + (c :: n).length) rest) ∧
        (∀ m ∈ ms, m.starts (c :: n) = false) ∧
        ∀ m ∈ ns, m.index < i + r.length + (c :: n).length := by
  obtain ⟨m, hm⟩ : ∃ m, (marksFrom .code 0 i u).find? (·.starts (c :: n)) = some m := by
    rw [← Option.isSome_iff_exists, List.find?_isSome]
    simpa [Whole] using h
  have hmem := List.mem_of_find?_eq_some hm
  have hstarts := List.find?_some hm
  obtain ⟨hle, hrest⟩ := rest_of_mem_marksFrom hmem
  have hlt := index_lt_of_mem_marksFrom hmem
  simp only [Mark.starts, Bool.and_eq_true, startsWith, List.isPrefixOf_iff_prefix,
    beq_iff_eq] at hstarts
  obtain ⟨⟨hdepth, -⟩, rest, hfound⟩ := hstarts
  -- The front of the text, up to the mark.
  generalize hr : u.take (m.index - i) = r
  have hindex : m.index = i + r.length := by
    rw [← hr, List.length_take]
    omega
  have hu : u = r ++ c :: (n ++ rest) := by
    rw [← hr, ← List.cons_append, hfound, hrest, List.take_append_drop]
  obtain ⟨mode, d, hproper, hgo⟩ := exists_marksFrom_append .code 0 r
  have hmarks := hgo i (c :: (n ++ rest))
  rw [← hu] at hmarks
  have hfront : (List.map (Mark.extend (c :: (n ++ rest))) (marksFrom .code 0 i r)).find?
      (·.starts (c :: n)) = none := by
    rw [List.find?_eq_none]
    intro m' hm' hs'
    rw [hmarks, List.find?_append] at hm
    obtain ⟨m'', hm''⟩ := Option.isSome_iff_exists.1
      ((List.find?_isSome (p := fun m => m.starts (c :: n))).2 ⟨m', hm', hs'⟩)
    rw [hm'', Option.some_or, Option.some.injEq] at hm
    obtain ⟨m₀, hm₀, he⟩ := List.mem_map.1 (List.mem_of_find?_eq_some hm'')
    have hbefore := index_lt_of_mem_marksFrom hm₀
    have hsame : m₀.index = m.index := by rw [← hm, ← he]; rfl
    omega
  have hback : m ∈ marksFrom mode d (i + r.length) (c :: (n ++ rest)) := by
    rw [hmarks, List.find?_append, hfront, Option.none_or] at hm
    exact List.mem_of_find?_eq_some hm
  obtain ⟨rfl, hd⟩ := mode_of_mark_at_front (hproper trivial) hback hindex hc
  obtain rfl : 0 = d := hdepth.symm.trans hd
  have hsep : Sealed [] n := sealed_of_ordinary fun d hd => ⟨List.not_mem_nil, hn d hd⟩
  obtain ⟨ns, hne, hns⟩ := hsep.marksFrom_append 0 (i + r.length + 1) rest
  have hlen : i + r.length + (c :: n).length = i + r.length + 1 + n.length := by
    rw [List.length_cons]
    omega
  have hnone := List.find?_eq_none.1 hfront
  refine ⟨r, rest, _, ns, hu, ?_, ?_, fun m' hm' => by simpa using hnone m' hm', ?_⟩
  · intro m' hm'
    rw [← Bool.not_eq_true]
    intro hs'
    exact hnone _ (List.mem_map_of_mem hm') (Mark.starts_extend hs' _)
  · rw [hmarks, marksFrom_ordinary hc, hne, hlen]
  · intro m' hm'
    rw [hlen]
    exact (hns m' hm').upper

/-- Cutting leaves nothing out but the separators, and no part holds one outside brackets and
literals when it stands alone. Of the text, `pre` is done with. -/
theorem cutAt_parts {c : Char} {n : List Char} (hc : isOrdinary c = true)
    (hn : ∀ d ∈ n, isOrdinary d = true) (pre u : List Char) : ∃ r rs,
      cutAt (pre ++ u) (c :: n) (marksFrom .code 0 pre.length u) pre.length = r :: rs ∧
      (c :: n).intercalate (r :: rs) = u ∧ ∀ p ∈ r :: rs, Whole (c :: n) .code 0 0 p := by
  induction hlen : u.length using Nat.strongRecOn generalizing pre u with
  | ind k ih =>
    by_cases hw : Whole (c :: n) .code 0 pre.length u
    · have hcut : cutAt (pre ++ u) (c :: n) (marksFrom .code 0 pre.length u ++ []) pre.length = _ :=
        cutAt_append (fun m hm => .inr (hw m hm)) []
      refine ⟨u, [], ?_, by simp [List.intercalate], ?_⟩
      · rw [List.append_nil] at hcut
        rw [hcut, cutAt, List.drop_left]
      · simpa using hw.move 0
    · obtain ⟨r, rest, ms, ns, rfl, hr, hmarks, hms, hns⟩ := exists_first_cut hc hn pre.length hw
      have hpre : (pre ++ r ++ c :: n).length = pre.length + r.length + (c :: n).length := by
        simp; omega
      have htext : pre ++ (r ++ c :: (n ++ rest)) = (pre ++ r ++ c :: n) ++ rest := by simp
      obtain ⟨s, ss, hcut, htail, hwhole⟩ := ih rest.length (by simp at hlen; omega)
        (pre ++ r ++ c :: n) rest rfl
      refine ⟨r, s :: ss, ?_, ?_, ?_⟩
      · rw [hmarks, cutAt_append (fun m hm => .inr (hms m hm)), cutAt,
          if_pos (by simp [starts_at hc]), cutAt_append (fun m hm => .inl (hns m hm)), ← hpre, htext,
          hcut]
        congr 1
        rw [← htext]
        exact slice_append_left pre r _
      · rw [List.intercalate_cons_cons, htail]
        simp
      · intro p hp
        rcases List.mem_cons.1 hp with rfl | hp
        · exact hr.move 0
        · exact hwhole p hp

/-- The text is the pieces in their order with only blanks and separators around them, a piece does
not come apart again, and pieces that hold no character of the separator outside brackets and
literals come back from the text that joins them. -/
theorem splitTopLevel_spread {sep : List Char} (hsep : IsSeparator sep) :
    (∀ t, Spread sep (splitTopLevel t sep) t ∧
      ∀ p ∈ splitTopLevel t sep, splitTopLevel p sep = [p]) ∧
    ∀ ps : List (List Char),
      (∀ p ∈ ps, Trimmed p ∧ p ≠ [] ∧ Sealed [] p ∧ ∀ a c b, OnTop p a c b → c ∉ sep) →
        splitTopLevel (sep.intercalate ps) sep = ps := by
  obtain ⟨hne, hord⟩ := hsep
  cases sep with
  | nil => contradiction
  | cons c n =>
    have hc := hord c (by simp)
    have hn : ∀ d ∈ n, isOrdinary d = true := fun d hd => hord d (by simp [hd])
    refine ⟨fun t => ?_, fun ps hps => ?_⟩
    · obtain ⟨r, rs, hcut, hjoin, hwhole⟩ := cutAt_parts hc hn [] t
      have hsplit : splitTopLevel t (c :: n) = ((r :: rs).map trim).filter (!·.isEmpty) := by
        rw [List.nil_append, List.length_nil] at hcut
        simp [splitTopLevel, marks, hcut]
      rw [hsplit]
      refine ⟨hjoin ▸ spread_intercalate (c :: n) r rs, fun p hp => ?_⟩
      obtain ⟨hp, hpne⟩ := List.mem_filter.1 hp
      obtain ⟨q, hq, rfl⟩ := List.mem_map.1 hp
      obtain ⟨u, v, hu, -, he⟩ := exists_pad q
      have hq := hwhole q hq
      rw [he] at hq
      exact ((Whole.behind_blank hu hq).front.move 0).splitTopLevel_eq hne (trimmed_trim q)
        (by simpa using hpne)
    · have hout : ∀ p ∈ ps, KeepsOut (c :: n) p := by
        intro p hp i rest
        obtain ⟨-, -, hs, hon⟩ := hps p hp
        obtain ⟨ms, he, hm⟩ := hs.marksFrom_append 0 i rest
        refine ⟨ms, he, fun m hmem => ?_⟩
        rw [← Bool.not_eq_true]
        intro hstarts
        have hmarks : m ∈ marksFrom .code 0 i (p ++ rest) := he ▸ List.mem_append_left _ hmem
        obtain ⟨t, ht⟩ := (hm m hmem).rest
        simp only [Mark.starts, Bool.and_eq_true, beq_iff_eq, startsWith,
          List.isPrefixOf_iff_prefix, ht, List.cons_prefix_cons] at hstarts
        obtain ⟨⟨hd, -⟩, rfl, -⟩ := hstarts
        obtain ⟨a, b, hab, -⟩ := hs.exists_onTop hmarks (hm m hmem).upper hd hc
        exact hon a m.char b hab List.mem_cons_self
      rw [splitTopLevel_of_keepsOut hc hn hout]
      have htrim : ps.map trim = ps :=
        (List.map_congr_left fun p hp => (hps p hp).1.trim_eq).trans (List.map_id _)
      rw [htrim, List.filter_eq_self]
      intro p hp
      simpa using (hps p hp).2.1

/-- A separator in a bracket, in a literal and behind its own first character, and a bracket that
closes nothing. -/
theorem alternatives_spread :
    let sep := "||".toList
    let t := "a || (b || c) ||| '||' ) || ".toList
    let ps := ["a?.b".toList, "(b || c)".toList]
    IsSeparator sep ∧
      splitTopLevel t sep = ["a".toList, "(b || c)".toList, "| '||' )".toList] ∧
      Spread sep (splitTopLevel t sep) t ∧
      (∀ p ∈ splitTopLevel t sep, splitTopLevel p sep = [p]) ∧
      (∀ p ∈ ps, Trimmed p ∧ p ≠ [] ∧ Sealed [] p ∧ ∀ a c b, OnTop p a c b → c ∉ sep) ∧
      splitTopLevel (sep.intercalate ps) sep = ps := by
  intro sep t ps
  have hsep : IsSeparator sep := ⟨by decide, by decide⟩
  have hon {p : List Char} (h : ∀ m ∈ marks p, m.depth = 0 → m.char ∉ sep) {a b : List Char}
      {c : Char} (hab : OnTop p a c b) : c ∉ sep :=
    fun hc => h _ (hab.mem_marks (hsep.ordinary c hc)) rfl hc
  have hgroup : Sealed [] "(b || c)".toList :=
    Sealed.bracket (o := '(') (by decide) (sealed_of_ordinary (by decide) : Sealed [] "b || c".toList)
  have hps : ∀ p ∈ ps, Trimmed p ∧ p ≠ [] ∧ Sealed [] p ∧ ∀ a c b, OnTop p a c b → c ∉ sep := by
    intro p hp
    obtain rfl | rfl : p = "a?.b".toList ∨ p = "(b || c)".toList := by simpa [ps] using hp
    · exact ⟨⟨by decide, by decide⟩, by decide, sealed_of_ordinary (by decide),
        fun a c b hab => hon (by decide) hab⟩
    · exact ⟨⟨by decide, by decide⟩, by decide, hgroup, fun a c b hab => hon (by decide) hab⟩
  obtain ⟨hspread, hback⟩ := splitTopLevel_spread hsep
  exact ⟨hsep, by decide, (hspread t).1, (hspread t).2, hps, hback ps hps⟩

end JsxToJinja.Code
