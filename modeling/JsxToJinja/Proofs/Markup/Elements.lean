import JsxToJinja.Content.Extract
import JsxToJinja.Proofs.Markup.Tags

/-! Texts of elements. Between tags stand characters that mean nothing to code, closed braces and
other elements. An element is read to its own end, whatever follows it. -/
namespace JsxToJinja.Markup
open JsxToJinja.Text JsxToJinja.Code

/-- Characters that a conditional, a conjunction or a disjunction is found by. -/
def operatorChars : List Char := ['&', '|', '?', ':']

/-- A character of text between tags. -/
structure IsTextChar (c : Char) : Prop where
  ordinary : isOrdinary c = true
  notTag : c ≠ '<'
  notOperator : c ∉ operatorChars

def closingTag (name : String) (p : List Char) : List Char :=
  '<' :: '/' :: ((name.toList ++ p) ++ ['>'])

/-- What stands between an opening tag and its closing tag. -/
inductive IsContent : List Char → Prop where
  | nil : IsContent []
  | text {c : Char} {t : List Char} : IsTextChar c → IsContent t → IsContent (c :: t)
  | braces {code t : List Char} : Sealed [] code → IsContent t →
      IsContent ('\x7b' :: (code ++ '\x7d' :: t))
  | closed {tag : OpeningTag} {s t : List Char} : IsTag true tag s → IsContent t →
      IsContent (s ++ t)
  | element {tag : OpeningTag} {s inner p t : List Char} : IsTag false tag s → IsContent inner →
      Blank p → IsContent t → IsContent (s ++ (inner ++ (closingTag tag.name p ++ t)))

/-- Text of an element that is no fragment. -/
inductive IsElement : Usage → List Char → Prop where
  | closed {tag : OpeningTag} {s : List Char} : IsTag true tag s →
      IsElement ⟨tag.name, tag.props, tag.spreads⟩ s
  | paired {tag : OpeningTag} {s inner p : List Char} : IsTag false tag s → tag.name ≠ "" →
      IsContent inner → Blank p →
      IsElement ⟨tag.name, tag.props, tag.spreads⟩ (s ++ (inner ++ closingTag tag.name p))

/-! ### Reading -/

theorem IsTag.selfClosing_eq {closed : Bool} {tag : OpeningTag} {s : List Char}
    (h : IsTag closed tag s) : tag.selfClosing = closed := by
  cases h <;> rfl

theorem IsTag.name_chars {closed : Bool} {tag : OpeningTag} {s : List Char}
    (h : IsTag closed tag s) : ∀ c ∈ tag.name.toList, isNameChar c = true ∧ c ≠ ':' := by
  cases h with
  | named hn _ _ => simpa using hn.chars
  | fragment => simp

/-- The two characters that a tag opens with. -/
theorem IsTag.opens {closed : Bool} {tag : OpeningTag} {s : List Char} (h : IsTag closed tag s) :
    ∃ c t, s = '<' :: c :: t ∧ isTagStart c = true ∧ c ≠ '/' := by
  cases h with
  | @named _ ps ss name a hn ha _ =>
    obtain ⟨c, name', rfl, hc⟩ := hn.cons
    refine ⟨c, name' ++ (a ++ tagEnd closed), rfl, ?_, ne_of_isNameChar hc (by decide)⟩
    simp [isTagStart, ha c rfl]
  | fragment => exact ⟨'>', [], rfl, by decide, by decide⟩

/-- A closing tag ends the children, whatever it names. -/
theorem childrenAt?_closing {w : List Char} (hw : '>' ∉ w) (fuel pos : Nat) (read : List Char)
    (nodes : List Node) (rest : List Char) :
    childrenAt? (fuel + 1) pos read nodes ('<' :: '/' :: (w ++ '>' :: rest)) =
      some (withText read nodes, pos + (w.length + 2) + 1, rest) := by
  have hmem : '>' ∉ '<' :: '/' :: w := by
    simp only [List.mem_cons, not_or]
    exact ⟨by decide, by decide, hw⟩
  have hfind := find?_of_notMem hmem rest
  simp only [List.cons_append, List.length_cons] at hfind
  have hdrop : ('<' :: '/' :: (w ++ '>' :: rest)).drop (w.length + 1 + 1 + 1) = rest := by
    simp
  rw [childrenAt?, if_pos (by simp [startsWith]), hfind, Option.map_some, hdrop]

/-- The closing tag ends the children of its element. -/
theorem childrenAt?_closingTag {closed : Bool} {tag : OpeningTag} {s p : List Char}
    (h : IsTag closed tag s) (hp : Blank p) {fuel : Nat} (hf : 0 < fuel) (pos : Nat)
    (read : List Char) (nodes : List Node) (rest : List Char) :
    childrenAt? fuel pos read nodes (closingTag tag.name p ++ rest) =
      some (withText read nodes, pos + (closingTag tag.name p).length, rest) := by
  obtain ⟨fuel, rfl⟩ := Nat.exists_eq_succ_of_ne_zero (Nat.ne_zero_of_lt hf)
  have hmem : '>' ∉ tag.name.toList ++ p := by
    rw [List.mem_append, not_or]
    refine ⟨fun hn => ?_, fun hb => ?_⟩
    · exact absurd (h.name_chars _ hn).1 (by decide)
    · exact absurd (hp _ hb) (by decide)
  have htext : closingTag tag.name p ++ rest = '<' :: '/' :: ((tag.name.toList ++ p) ++ '>' :: rest) := by
    simp [closingTag]
  have hlen : (closingTag tag.name p).length = (tag.name.toList ++ p).length + 2 + 1 := by
    simp [closingTag, Nat.add_assoc]
  rw [htext, hlen, childrenAt?_closing hmem]
  rfl

theorem opensTag_of_ne {c : Char} (h : c ≠ '<') (t : List Char) : opensTag (c :: t) = false := by
  rw [opensTag.eq_def]
  split
  · rename_i he
    exact absurd (List.cons.inj he).1 h
  · rfl

/-- An element is read from its tag, and from its content when there is any. -/
theorem elementAt?_closed {tag : OpeningTag} {s : List Char} (h : IsTag true tag s) {fuel : Nat}
    (hf : 0 < fuel) (pos : Nat) (rest : List Char) :
    ∃ e, elementAt? fuel pos (s ++ rest) = some (e, rest) ∧ e.stop = pos + s.length ∧
      e.name = tag.name ∧ e.props = tag.props ∧ e.spreads = tag.spreads := by
  obtain ⟨fuel, rfl⟩ := Nat.exists_eq_succ_of_ne_zero (Nat.ne_zero_of_lt hf)
  refine ⟨⟨tag.name, tag.props, tag.spreads, [], true, pos, pos + s.length⟩, ?_, rfl, rfl, rfl, rfl⟩
  rw [elementAt?, openingTag?_of_isTag h rest]
  simp [h.selfClosing_eq]

theorem elementAt?_open {tag : OpeningTag} {s t rest : List Char} (h : IsTag false tag s)
    {fuel pos stop : Nat} {nodes : List Node}
    (hc : childrenAt? fuel (pos + s.length) [] [] t = some (nodes, stop, rest)) :
    ∃ e, elementAt? (fuel + 1) pos (s ++ t) = some (e, rest) ∧ e.stop = stop ∧
      e.name = tag.name ∧ e.props = tag.props ∧ e.spreads = tag.spreads := by
  refine ⟨⟨tag.name, tag.props, tag.spreads, nodes.reverse, false, pos, stop⟩, ?_, rfl, rfl, rfl, rfl⟩
  rw [elementAt?, openingTag?_of_isTag h t]
  simp [h.selfClosing_eq, hc]

/-- A child element is passed over in one step. -/
theorem childrenAt?_opened {c : Char} {t rest : List Char} (hc : isTagStart c = true)
    {fuel pos : Nat} {e : Element} (he : elementAt? fuel pos ('<' :: c :: t) = some (e, rest))
    (read : List Char) (nodes : List Node) :
    childrenAt? (fuel + 1) pos read nodes ('<' :: c :: t) =
      childrenAt? fuel e.stop [] (.element e :: withText read nodes) rest := by
  have hslash : c ≠ '/' := by
    rintro rfl
    exact absurd hc (by decide)
  rw [childrenAt?, if_neg (by simp [startsWith, Ne.symm hslash])]
  simp [opensTag, hc, he]

theorem childrenAt?_child {closed : Bool} {tag : OpeningTag} {s t rest : List Char}
    (h : IsTag closed tag s) {fuel pos : Nat} {e : Element}
    (he : elementAt? fuel pos (s ++ t) = some (e, rest)) (read : List Char) (nodes : List Node) :
    childrenAt? (fuel + 1) pos read nodes (s ++ t) =
      childrenAt? fuel e.stop [] (.element e :: withText read nodes) rest := by
  obtain ⟨c, s', rfl, hc, -⟩ := h.opens
  exact childrenAt?_opened hc he read nodes

/-- A character of text is kept for the next node. -/
theorem childrenAt?_char {c : Char} (hc : c ≠ '<') (hb : c ≠ '\x7b') (fuel pos : Nat)
    (read : List Char) (nodes : List Node) (t : List Char) :
    childrenAt? (fuel + 1) pos read nodes (c :: t) =
      childrenAt? fuel (pos + 1) (c :: read) nodes t := by
  rw [childrenAt?, if_neg (ne_true_of_eq_false (startsWith_of_head (by simpa using hc) _))]
  simp [opensTag_of_ne hc, hb]

/-- Code between braces is a node of its own, unless it is a comment or blank. -/
theorem childrenAt?_braces {code : List Char} (hs : Sealed [] code) (fuel pos : Nat)
    (read : List Char) (nodes : List Node) (t : List Char) :
    childrenAt? (fuel + 1) pos read nodes ('\x7b' :: (code ++ '\x7d' :: t)) =
      childrenAt? fuel (pos + (code.length + 1) + 1) []
        (if (trim code).isEmpty || isRemark (trim code) then withText read nodes
          else .expression (String.ofList (trim code)) :: withText read nodes) t := by
  have hclose : closingFor? '\x7b' = some '\x7d' := by decide
  have hslice : slice ('\x7b' :: (code ++ '\x7d' :: t)) 1 (code.length + 1) = code := by
    have := slice_append_left ['\x7b'] code ('\x7d' :: t)
    simpa [Nat.add_comm] using this
  have hdrop : ('\x7b' :: (code ++ '\x7d' :: t)).drop (code.length + 1 + 1) = t := by
    simp
  rw [childrenAt?, if_neg (by simp [startsWith])]
  simp only [opensTag_of_ne (c := '\x7b') (by decide), balancedLength?_group hclose hs t, hslice,
    hdrop]
  rfl

/-- Content is passed over up to what follows it. -/
theorem childrenAt?_content {w : List Char} (h : IsContent w) {tail : List Char} {fuel : Nat}
    (hf : (w ++ tail).length < fuel) (pos : Nat) (read : List Char) (nodes : List Node) :
    ∃ fuel' read' nodes', tail.length < fuel' ∧ childrenAt? fuel pos read nodes (w ++ tail) =
      childrenAt? fuel' (pos + w.length) read' nodes' tail := by
  induction h generalizing tail fuel pos read nodes with
  | nil => exact ⟨fuel, read, nodes, hf, rfl⟩
  | @text c t hc ht ih =>
    obtain ⟨fuel, rfl⟩ := Nat.exists_eq_succ_of_ne_zero (Nat.ne_zero_of_lt hf)
    have hlen : (t ++ tail).length < fuel := by simpa using hf
    obtain ⟨fuel', read', nodes', hf', he⟩ := ih hlen (pos + 1) (c :: read) nodes
    refine ⟨fuel', read', nodes', hf', ?_⟩
    have hbrace : c ≠ '\x7b' := by
      rintro rfl
      exact absurd hc.ordinary (by decide)
    have hl : pos + (c :: t).length = pos + 1 + t.length := by simp; omega
    rw [List.cons_append, hl, childrenAt?_char hc.notTag hbrace, he]
  | @braces code t hs ht ih =>
    obtain ⟨fuel, rfl⟩ := Nat.exists_eq_succ_of_ne_zero (Nat.ne_zero_of_lt hf)
    have hlen : (t ++ tail).length < fuel := by
      simp only [List.length_append, List.length_cons] at hf ⊢
      omega
    have hl : pos + ('\x7b' :: (code ++ '\x7d' :: t)).length =
        pos + (code.length + 1) + 1 + t.length := by
      simp; omega
    rw [List.cons_append, List.append_assoc, List.cons_append, hl, childrenAt?_braces hs]
    exact ih hlen _ _ _
  | @closed tag s t hs ht ih =>
    obtain ⟨fuel, rfl⟩ := Nat.exists_eq_succ_of_ne_zero (Nat.ne_zero_of_lt hf)
    obtain ⟨c, s', rfl, -⟩ := hs.opens
    have hlen : (t ++ tail).length < fuel := by
      simp only [List.length_append, List.length_cons] at hf ⊢
      omega
    obtain ⟨e, he, hstop, -⟩ := elementAt?_closed hs (Nat.lt_of_le_of_lt (Nat.zero_le _) hlen) pos (t ++ tail)
    have hl : pos + ('<' :: c :: s' ++ t).length = e.stop + t.length := by
      rw [hstop, List.length_append]; omega
    rw [List.append_assoc, childrenAt?_child hs he, hl]
    exact ih hlen _ _ _
  | @element tag s inner p t hs hi hp ht ihi ih =>
    obtain ⟨c, s', rfl, -⟩ := hs.opens
    simp only [List.length_append, List.length_cons] at hf
    obtain ⟨fuel, rfl⟩ : ∃ n, fuel = n + 1 + 1 := ⟨fuel - 2, by omega⟩
    have hlen : (t ++ tail).length < fuel + 1 := by
      simp only [List.length_append]
      omega
    have hleni : (inner ++ (closingTag tag.name p ++ (t ++ tail))).length < fuel := by
      simp only [List.length_append]
      omega
    obtain ⟨fuel', read', nodes', hf', hc⟩ := ihi hleni (pos + ('<' :: c :: s').length) [] []
    rw [childrenAt?_closingTag hs hp (Nat.lt_of_le_of_lt (Nat.zero_le _) hf')] at hc
    obtain ⟨e, he, hstop, -⟩ := elementAt?_open hs hc
    have hl : pos + ('<' :: c :: s' ++ (inner ++ (closingTag tag.name p ++ t))).length =
        e.stop + t.length := by
      rw [hstop]
      simp only [List.length_append]
      omega
    have htext : '<' :: c :: s' ++ (inner ++ (closingTag tag.name p ++ t)) ++ tail =
        '<' :: c :: s' ++ (inner ++ (closingTag tag.name p ++ (t ++ tail))) := by simp
    rw [htext, childrenAt?_child hs he, hl]
    exact ih hlen _ _ _

/-- An element is read to its own end. -/
theorem IsElement.elementAt? {u : Usage} {t : List Char} (h : IsElement u t) {rest : List Char}
    {fuel : Nat} (hf : (t ++ rest).length ≤ fuel) (pos : Nat) :
    ∃ e, Markup.elementAt? fuel pos (t ++ rest) = some (e, rest) ∧ e.stop = pos + t.length ∧
      (⟨e.name, e.props, e.spreads⟩ : Usage) = u := by
  cases h with
  | closed hs =>
    obtain ⟨c, s', rfl, -⟩ := hs.opens
    simp only [List.length_append, List.length_cons] at hf
    obtain ⟨e, he, hstop, hn, hp, hsp⟩ := elementAt?_closed hs (by omega : 0 < fuel) pos rest
    exact ⟨e, he, hstop, by rw [hn, hp, hsp]⟩
  | @paired tag s inner p hs hne hi hp =>
    obtain ⟨c, s', rfl, -⟩ := hs.opens
    simp only [List.length_append, List.length_cons] at hf
    obtain ⟨fuel, rfl⟩ : ∃ n, fuel = n + 1 := ⟨fuel - 1, by omega⟩
    have hlen : (inner ++ (closingTag tag.name p ++ rest)).length < fuel := by
      simp only [List.length_append]
      omega
    obtain ⟨fuel', read', nodes', hf', hc⟩ :=
      childrenAt?_content hi hlen (pos + ('<' :: c :: s').length) [] []
    rw [childrenAt?_closingTag hs hp (Nat.lt_of_le_of_lt (Nat.zero_le _) hf')] at hc
    obtain ⟨e, he, hstop, hn, hp, hsp⟩ := elementAt?_open hs hc
    refine ⟨e, ?_, ?_, by rw [hn, hp, hsp]⟩
    · rw [← he]
      simp
    · rw [hstop]
      simp only [List.length_append]
      omega

theorem IsElement.head {u : Usage} {t : List Char} (h : IsElement u t) : t.head? = some '<' := by
  cases h with
  | closed hs =>
    obtain ⟨c, s', rfl, -⟩ := hs.opens
    rfl
  | paired hs _ _ _ =>
    obtain ⟨c, s', rfl, -⟩ := hs.opens
    rfl

theorem IsElement.last {u : Usage} {t : List Char} (h : IsElement u t) : t.getLast? = some '>' := by
  cases h with
  | closed hs =>
    cases hs with
    | named _ _ _ => simp [tagEnd, List.getLast?_cons, List.getLast?_append]
  | paired hs _ _ _ => simp [closingTag, List.getLast?_append, List.getLast?_cons]

theorem IsElement.name_ne {u : Usage} {t : List Char} (h : IsElement u t) : u.name ≠ "" := by
  cases h with
  | closed hs =>
    cases hs with
    | named hn _ _ => simpa using hn.ne_nil
  | paired _ hne _ _ => exact hne

/-- An element that takes up the whole text is found, with what its tag says. -/
theorem IsElement.wholeElement? {u : Usage} {t : List Char} (h : IsElement u t) :
    ∃ e, Content.wholeElement? t = some e ∧ (⟨e.name, e.props, e.spreads⟩ : Usage) = u := by
  have hf : (t ++ []).length ≤ t.length + 2 := by simp
  obtain ⟨e, he, hstop, hu⟩ := h.elementAt? hf 0
  rw [List.append_nil] at he
  refine ⟨e, ?_, hu⟩
  simp [Content.wholeElement?, parseElement?, he, hstop]

/-- An element with something behind it does not take up the whole text. -/
theorem IsElement.wholeElement?_append {u : Usage} {t rest : List Char} (h : IsElement u t)
    (hne : rest ≠ []) : Content.wholeElement? (t ++ rest) = none := by
  obtain ⟨e, he, hstop, -⟩ := h.elementAt? (Nat.le_add_right (t ++ rest).length 2) 0
  have hpos : 0 < rest.length := List.length_pos_iff.2 hne
  have hstop' : ¬ e.stop = (t ++ rest).length := by
    rw [hstop, List.length_append]
    omega
  simp only [Content.wholeElement?, parseElement?, List.drop_zero, he, Option.map_some,
    Option.bind_some]
  rw [if_neg (by simpa using hstop')]

theorem wholeElement?_of_head {t : List Char} (h : t.head? ≠ some '<') :
    Content.wholeElement? t = none := by
  have hopen : openingTag? t = none := by
    rw [openingTag?.eq_def]
    split
    · exact absurd rfl h
    · rfl
  simp [Content.wholeElement?, parseElement?, Markup.elementAt?, hopen]

/-! ### Nesting -/

/-- A name of a tag or property holds no operator. -/
theorem IsName.sealed {t : List Char} (h : ∀ c ∈ t, isNameChar c = true ∧ c ≠ ':') :
    Sealed operatorChars t := by
  apply sealed_of_ordinary
  intro c hc
  obtain ⟨hn, hcolon⟩ := h c hc
  refine ⟨fun hm => ?_, isOrdinary_of_isNameChar hn⟩
  simp only [operatorChars, List.mem_cons, List.not_mem_nil, or_false] at hm
  rcases hm with rfl | rfl | rfl | rfl
  · exact absurd hn (by decide)
  · exact absurd hn (by decide)
  · exact absurd hn (by decide)
  · exact hcolon rfl

private theorem sealed_blank {p : List Char} (hp : Blank p) : Sealed operatorChars p :=
  sealed_of_blank hp (by decide)

theorem IsPropText.sealed {v : PropValue} {s : List Char} (h : IsPropText v s) :
    Sealed operatorChars s := by
  cases h with
  | quoted hq _ hb => exact sealed_literal (by rcases hq with rfl | rfl <;> decide) hb
  | braces hs => exact Sealed.bracket (by decide) hs

/-- The properties of a tag hold no operator outside quotes and braces. -/
theorem IsTagTail.sealed {glued : Bool} {ps : List Property} {ss : List String} {a : List Char}
    (h : IsTagTail glued ps ss a) : Sealed operatorChars a := by
  induction h with
  | done hp => exact sealed_blank hp
  | flag hp _ hk _ ih => exact (sealed_blank hp).append ((IsName.sealed hk.chars).append ih)
  | value hp _ hk hq hr hv _ ih =>
    exact (sealed_blank hp).append ((IsName.sealed hk.chars).append ((sealed_blank hq).append
      (.plain (by decide) (by decide) ((sealed_blank hr).append (hv.sealed.append ih)))))
  | spread hp hq hr hs hc _ _ _ _ ih =>
    have hblank {p : List Char} (hp : Blank p) : Sealed [] p := (sealed_blank hp).mono (by simp)
    have hdots : Sealed [] "...".toList := sealed_of_ordinary (by decide)
    have hinner := (hblank hq).append (hdots.append ((hblank hr).append (hc.append (hblank hs))))
    exact (sealed_blank hp).append (.group (by decide) hinner ih)

/-- A tag holds no operator outside quotes and braces. -/
theorem IsTag.sealed {closed : Bool} {tag : OpeningTag} {s : List Char} (h : IsTag closed tag s) :
    Sealed operatorChars s := by
  cases h with
  | named hn _ ha =>
    have hend : Sealed operatorChars (tagEnd closed) := by
      cases closed <;> exact sealed_of_ordinary (by decide)
    exact .plain (by decide) (by decide) ((IsName.sealed hn.chars).append (ha.sealed.append hend))
  | fragment => exact sealed_of_ordinary (by decide)

theorem IsTag.sealed_closingTag {closed : Bool} {tag : OpeningTag} {s p : List Char}
    (h : IsTag closed tag s) (hp : Blank p) : Sealed operatorChars (closingTag tag.name p) :=
  .plain (by decide) (by decide) (.plain (by decide) (by decide)
    (((IsName.sealed h.name_chars).append (sealed_blank hp)).append (sealed_of_ordinary (by decide))))

/-- What stands between tags holds no operator outside its braces. -/
theorem IsContent.sealed {t : List Char} (h : IsContent t) : Sealed operatorChars t := by
  induction h with
  | nil => exact .nil
  | text hc _ ih => exact .plain hc.notOperator hc.ordinary ih
  | braces hs _ ih => exact .group (by decide) hs ih
  | closed hs _ ih => exact hs.sealed.append ih
  | element hs _ hp _ ihi ih =>
    exact hs.sealed.append (ihi.append ((hs.sealed_closingTag hp).append ih))

/-- Outside its braces and quoted values an element holds nothing that an operator is found by. -/
theorem IsElement.sealed {u : Usage} {t : List Char} (h : IsElement u t) :
    Sealed operatorChars t := by
  cases h with
  | closed hs => exact hs.sealed
  | paired hs _ hi hp => exact hs.sealed.append (hi.sealed.append (hs.sealed_closingTag hp))

end JsxToJinja.Markup
