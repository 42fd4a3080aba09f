import JsxToJinja.Proofs.Text.Trimmed
import JsxToJinja.Text.Naming
import Mathlib.Data.List.Chain

/-! Texts in which no brace is followed by a percent sign. -/
namespace JsxToJinja.Text

/-- The text holds no opening of a tag. -/
def TagFree (t : List Char) : Prop := ¬ ['\x7b', '%'] <:+: t

/-- Neighbours decide. -/
theorem tagFree_iff_isChain {t : List Char} :
    TagFree t ↔ t.IsChain fun a b => ¬(a = '\x7b' ∧ b = '%') := by
  rw [TagFree, List.isChain_iff_forall_rel_of_append_cons_cons]
  constructor
  · rintro h a b u v rfl ⟨rfl, rfl⟩
    exact h ⟨u, v, by simp⟩
  · rintro h ⟨u, v, hsplit⟩
    rw [List.append_assoc] at hsplit
    exact h hsplit.symm ⟨rfl, rfl⟩

instance (t : List Char) : Decidable (TagFree t) := decidable_of_iff _ tagFree_iff_isChain.symm

/-- No opening of a tag arises where the two texts meet. -/
def Apart (a b : List Char) : Prop := a.getLast? = some '\x7b' → b.head? ≠ some '%'

/-- A text that stands between any two others without an opening of a tag. -/
structure Firm (t : List Char) : Prop where
  free : TagFree t
  nonempty : t ≠ []
  head : t.head? ≠ some '%'
  last : t.getLast? ≠ some '\x7b'

instance (t : List Char) : Decidable (Firm t) :=
  decidable_of_iff (TagFree t ∧ t ≠ [] ∧ t.head? ≠ some '%' ∧ t.getLast? ≠ some '\x7b')
    ⟨fun ⟨hfree, hne, hhead, hlast⟩ => ⟨hfree, hne, hhead, hlast⟩,
      fun h => ⟨h.free, h.nonempty, h.head, h.last⟩⟩

/-- No tag is opened in two texts side by side, nor where they meet. -/
theorem tagFree_append {a b : List Char} : TagFree (a ++ b) ↔ TagFree a ∧ TagFree b ∧ Apart a b := by
  simp only [tagFree_iff_isChain, List.isChain_append, Apart, Option.mem_def]
  refine and_congr_right fun _ => and_congr_right fun _ => ?_
  constructor
  · rintro h ha hb
    exact h _ ha _ hb ⟨rfl, rfl⟩
  · rintro h x hx y hy ⟨rfl, rfl⟩
    exact h hx hy

theorem tagFree_cons {c : Char} {t : List Char} :
    TagFree (c :: t) ↔ TagFree t ∧ (c = '\x7b' → t.head? ≠ some '%') := by
  simp only [tagFree_iff_isChain, List.isChain_cons, Option.mem_def]
  refine and_comm.trans (and_congr_right fun _ => ?_)
  constructor
  · rintro h hc ht
    exact h _ ht ⟨hc, rfl⟩
  · rintro h y hy ⟨hc, rfl⟩
    exact h hc hy

theorem tagFree_nil : TagFree [] := by decide

theorem Apart.of_last {a b : List Char} (h : a.getLast? ≠ some '\x7b') : Apart a b :=
  fun hlast => absurd hlast h

theorem Apart.of_head {a b : List Char} (h : b.head? ≠ some '%') : Apart a b := fun _ => h

theorem TagFree.of_isInfix {a b : List Char} (h : a <:+: b) (hb : TagFree b) : TagFree a :=
  fun ha => hb (ha.trans h)

theorem TagFree.of_notMem {t : List Char} (h : '\x7b' ∉ t) : TagFree t :=
  fun ht => h (ht.subset (by simp))

theorem TagFree.trim {t : List Char} (h : TagFree t) : TagFree (trim t) := h.of_isInfix (infix_trim t)

/-- Texts that are kept apart by a firm one. -/
theorem Firm.tagFree_intercalate {sep : List Char} (hs : Firm sep) {ts : List (List Char)}
    (h : ∀ t ∈ ts, TagFree t) : TagFree (sep.intercalate ts) := by
  induction ts with
  | nil => exact tagFree_nil
  | cons t ts ih =>
    have ht := h t (by simp)
    have hrest := ih fun u hu => h u (by simp [hu])
    cases ts with
    | nil => simpa [List.intercalate] using ht
    | cons u us =>
      rw [List.intercalate_cons_cons, tagFree_append, tagFree_append]
      refine ⟨⟨ht, hs.free, fun _ => hs.head⟩, hrest, fun hlast => ?_⟩
      rw [List.getLast?_append_of_ne_nil _ hs.nonempty] at hlast
      exact absurd hlast hs.last

/-! ### Texts written character by character -/

/-- Rewriting characters opens no tag, if what is written takes part in none. -/
theorem TagFree.flatMap {t : List Char} {f : Char → List Char} (ht : TagFree t)
    (hf : ∀ c ∈ t, f c = [c] ∨ Firm (f c)) : TagFree (t.flatMap f) := by
  induction t with
  | nil => exact tagFree_nil
  | cons c t ih =>
    obtain ⟨htail, hmeet⟩ := tagFree_cons.1 ht
    have hrest := ih htail fun d hd => hf d (by simp [hd])
    have hhead (h : (t.flatMap f).head? = some '%') : t.head? = some '%' := by
      cases t with
      | nil => cases h
      | cons d t =>
        rcases hf d (by simp) with hd | hd
        · simpa [hd] using h
        · rw [List.flatMap_cons, List.head?_append_of_ne_nil _ hd.nonempty] at h
          exact absurd h hd.head
    rw [List.flatMap_cons]
    rcases hf c (by simp) with hc | hc
    · rw [hc, List.singleton_append, tagFree_cons]
      exact ⟨hrest, fun hbrace h => hmeet hbrace (hhead h)⟩
    · exact tagFree_append.2 ⟨hc.free, hrest, fun h => absurd h hc.last⟩

/-! ### Pieces, lines and words -/

private theorem infix_of_mem_piecesFrom {sep p t : List Char} {skip : Nat} {piece : List Char}
    (h : p ∈ piecesFrom sep skip piece t) (hskip : skip ≠ 0 → piece = []) :
    p <:+: piece.reverse ++ t := by
  induction t generalizing skip piece with
  | nil =>
    have hp : p = piece.reverse := by cases skip <;> simpa [piecesFrom] using h
    exact ⟨[], [], by simp [hp]⟩
  | cons c t ih =>
    cases skip with
    | succ skip =>
      rw [hskip (by omega)] at h ⊢
      exact (ih h fun _ => rfl).trans (List.infix_cons List.infix_rfl)
    | zero =>
      rw [piecesFrom] at h
      split at h
      · rcases List.mem_cons.1 h with rfl | h
        · exact List.infix_append' [] _ _
        · have hrest := ih h fun _ => rfl
          exact hrest.trans ⟨piece.reverse ++ [c], [], by simp⟩
      · have hrest := ih h fun h => absurd rfl h
        simpa using hrest

theorem TagFree.replaceAll {old new t : List Char} (h : TagFree t) (hn : Firm new) :
    TagFree (replaceAll old new t) :=
  hn.tagFree_intercalate fun _ hp =>
    h.of_isInfix (infix_of_mem_piecesFrom hp fun h => absurd rfl h)

private theorem infix_of_mem_linesFrom {l line t : List Char} (h : l ∈ linesFrom line t) :
    l <:+: line.reverse ++ t := by
  induction t generalizing line with
  | nil =>
    cases line with
    | nil => cases h
    | cons c line =>
      cases List.mem_singleton.1 h
      simp
  | cons c t ih =>
    rw [linesFrom] at h
    split at h
    · rcases List.mem_cons.1 h with rfl | h
      · rw [endLine.eq_def]
        split
        · exact ⟨[], '\r' :: c :: t, by simp⟩
        · exact List.infix_append' [] _ _
      · exact (ih h).trans ⟨line.reverse ++ [c], [], by simp⟩
    · simpa using ih h

theorem infix_of_mem_lines {l t : List Char} (h : l ∈ lines t) : l <:+: t := by
  simpa using infix_of_mem_linesFrom h

theorem Firm.of_notMem {t : List Char} (hne : t ≠ []) (hbrace : '\x7b' ∉ t) (hpercent : '%' ∉ t) :
    Firm t :=
  ⟨.of_notMem hbrace, hne, fun h => hpercent (List.mem_of_mem_head? h),
    fun h => hbrace (List.mem_of_getLast? h)⟩

private theorem lowerShifts_keep {r : Nat × Nat × Nat × Int} (hr : r ∈ lowerShifts) {n : Nat}
    (hlo : r.1 ≤ n) (hhi : n ≤ r.2.1) :
    ((n : Int) + r.2.2.2).toNat ≠ 123 ∧ ((n : Int) + r.2.2.2).toNat ≠ 37 := by
  have htable : ∀ r ∈ lowerShifts, (123 < (r.1 : Int) + r.2.2.2) ∨
      ((r.2.1 : Int) + r.2.2.2 < 123 ∧ 37 < (r.1 : Int) + r.2.2.2) := by
    decide +kernel
  have := htable r hr
  omega

private theorem toNat_ofNat_cases (n : Nat) : (Char.ofNat n).toNat = n ∨ (Char.ofNat n).toNat = 0 := by
  by_cases hvalid : n.isValidChar
  · left
    rw [Char.ofNat, dif_pos hvalid]
    rfl
  · right
    rw [Char.ofNat, dif_neg hvalid]
    rfl

private theorem shifted_keep {c : Char} (hc : 128 ≤ c.toNat) :
    shifted c lowerShifts ≠ '\x7b' ∧ shifted c lowerShifts ≠ '%' := by
  have hbrace : ('\x7b').toNat = 123 := rfl
  have hpercent : ('%').toNat = 37 := rfl
  rw [shifted]
  split
  · rename_i delta hdelta
    obtain ⟨⟨first, last, step, delta'⟩, hr, hsome⟩ := List.exists_of_findSome?_eq_some hdelta
    dsimp only at hsome
    split at hsome
    · rename_i hrange
      cases hsome
      simp only [Bool.and_eq_true, decide_eq_true_eq] at hrange
      have hkeep := lowerShifts_keep hr hrange.1.1 hrange.1.2
      dsimp only at hkeep
      have hcode := toNat_ofNat_cases ((c.toNat : Int) + delta).toNat
      constructor <;> (intro h; rw [h] at hcode; omega)
    · cases hsome
  · constructor <;> (rintro rfl; omega)

theorem firm_lowercase {c : Char} (h : isUppercase c = true) : Firm (lowercase c) := by
  rw [lowercase]
  rw [isUppercase] at h
  split
  · rename_i hascii
    have htable : ∀ n < 128, (Char.ofNat n).isUpper → Firm [(Char.ofNat n).toLower] := by decide
    rw [if_pos hascii] at h
    have hfirm := htable c.toNat hascii
    rw [Char.ofNat_toNat] at hfirm
    exact hfirm h
  · split
    · decide
    · have hkeep := shifted_keep (c := c) (by omega)
      exact .of_notMem (by simp) (by simpa using Ne.symm hkeep.1) (by simpa using Ne.symm hkeep.2)

theorem TagFree.append_firm {a b : List Char} (ha : TagFree a) (hb : Firm b) :
    TagFree (a ++ b) ∧ (a ++ b).getLast? ≠ some '\x7b' := by
  refine ⟨tagFree_append.2 ⟨ha, hb.free, fun _ => hb.head⟩, ?_⟩
  rw [List.getLast?_append_of_ne_nil _ hb.nonempty]
  exact hb.last

private theorem tagFree_kebabFrom {before : Option Char} {written t : List Char}
    (hw : TagFree written.reverse) (ht : TagFree t)
    (hmeet : written.reverse.getLast? = some '\x7b' → t.head? ≠ some '%') :
    TagFree (kebabFrom before written t).reverse := by
  induction t generalizing before written with
  | nil => exact hw
  | cons c t ih =>
    obtain ⟨htail, hnext⟩ := tagFree_cons.1 ht
    have hdash : TagFree ('-' :: written).reverse ∧ ('-' :: written).reverse.getLast? ≠ some '\x7b' := by
      simpa using hw.append_firm (b := ['-']) (by decide)
    have hword {w : List Char} (h : TagFree w.reverse ∧ w.reverse.getLast? ≠ some '\x7b') :
        TagFree (kebabFrom (some c) w t).reverse := ih h.1 htail fun hlast => absurd hlast h.2
    have hlower {w : List Char} (h : TagFree w.reverse) (hc : isUppercase c = true) :
        TagFree (kebabFrom (some c) ((lowercase c).reverse ++ w) t).reverse := by
      refine hword ?_
      rw [List.reverse_append, List.reverse_reverse]
      exact h.append_firm (firm_lowercase hc)
    rw [kebabFrom]
    dsimp only
    split
    · split
      · exact hword hdash
      · rename_i hstart
        refine hword ⟨hw, ?_⟩
        cases written with
        | nil => simp
        | cons d written =>
          have hd : d = '-' := by simpa using hstart
          simp [hd]
    · split
      · rename_i hc
        split
        · exact hlower hdash.1 hc
        · exact hlower hw hc
      · refine ih ?_ htail ?_
        · rw [List.reverse_cons, tagFree_append]
          exact ⟨hw, tagFree_cons.2 ⟨tagFree_nil, by simp⟩, fun hlast => by simpa using hmeet hlast⟩
        · simpa using hnext

/-- Kebab case opens no tag. -/
theorem TagFree.kebab {t : List Char} (h : TagFree t) : TagFree (kebab t) := by
  have hfree : TagFree (kebabFrom none [] t).reverse :=
    tagFree_kebabFrom (by decide) h fun hlast => by cases hlast
  refine TagFree.of_isInfix ?_ hfree
  rw [Text.kebab]
  refine (List.dropWhile_suffix _).isInfix.trans ?_
  rw [List.reverse_infix]
  exact (List.dropWhile_suffix _).isInfix

end JsxToJinja.Text
