import JsxToJinja.Proofs.Code.Splitting
import JsxToJinja.Proofs.Markup.Masking
import JsxToJinja.Proofs.Text.ByteOffsets
import JsxToJinja.Proofs.Text.Pieces

/-! Offsets in masked text. The search for elements goes from one to the next and comes to an end,
and masking overwrites bytes of the elements in place. -/
namespace JsxToJinja.Markup
open JsxToJinja.Text JsxToJinja.Code

/-! ### What a reader leaves -/

theorem lt_length_of_balancedLength? {t : List Char} {n : Nat} (h : balancedLength? t = some n) :
    n < t.length := by
  cases t with
  | nil => cases h
  | cons c t =>
    simp only [balancedLength?, Option.bind_eq_bind, Option.bind_eq_some_iff, Option.some_inj] at h
    obtain ⟨close, -, m, hm, rfl⟩ := h
    have hlt := index_lt_of_mem_marksFrom (List.mem_of_find?_eq_some hm)
    omega

theorem suffix_of_braces? {t code rest : List Char} (h : braces? t = some (code, rest)) :
    rest <:+ t := by
  simp only [braces?, Option.map_eq_some_iff, Prod.mk.injEq] at h
  obtain ⟨n, -, -, rfl⟩ := h
  exact List.drop_suffix _ _

theorem suffix_of_propValue? {t rest : List Char} {v : PropValue}
    (h : propValue? t = some (v, rest)) : rest <:+ t := by
  cases t with
  | nil => cases h
  | cons c r =>
    simp only [propValue?] at h
    split at h
    · simp only [Option.map_eq_some_iff, Prod.mk.injEq] at h
      obtain ⟨i, -, -, rfl⟩ := h
      exact (List.drop_suffix _ _).trans (List.suffix_cons c r)
    · split at h
      · simp only [Option.map_eq_some_iff, Prod.mk.injEq, Prod.exists] at h
        obtain ⟨code, left, hb, -, rfl⟩ := h
        exact suffix_of_braces? hb
      · cases h

/-- What a tag leaves stands behind a `>` of the text. -/
theorem suffix_of_tagTail? {name : String} {fuel : Nat} {ps : List Property} {ss : List String}
    {t rest : List Char} {tag : OpeningTag} (h : tagTail? name fuel ps ss t = some (tag, rest)) :
    '>' :: rest <:+ t := by
  induction fuel generalizing ps ss t with
  | zero => cases h
  | succ fuel ih =>
    have htrim : trimStart t <:+ t := List.dropWhile_suffix _
    simp only [tagTail?] at h
    generalize trimStart t = s at h htrim
    split at h
    · rename_i hw
      obtain ⟨r, rfl⟩ := List.isPrefixOf_iff_prefix.1 hw
      cases h
      exact .trans ⟨['/'], rfl⟩ htrim
    · split at h
      · rename_i hw
        obtain ⟨r, rfl⟩ := List.isPrefixOf_iff_prefix.1 hw
        cases h
        exact htrim
      · split at h
        · simp only [Option.bind_eq_bind, Option.bind_eq_some_iff, Prod.exists] at h
          obtain ⟨code, left, hb, h⟩ := h
          exact ((ih h).trans (suffix_of_braces? hb)).trans htrim
        · split at h
          · cases h
          · have hkey : trimStart (s.dropWhile isNameChar) <:+ t :=
              ((List.dropWhile_suffix _).trans (List.dropWhile_suffix _)).trans htrim
            split at h
            · rename_i left hleft
              simp only [Option.bind_eq_bind, Option.bind_eq_some_iff, Prod.exists] at h
              obtain ⟨v, behind, hv, h⟩ := h
              have hvalue : behind <:+ left :=
                (suffix_of_propValue? hv).trans (List.dropWhile_suffix _)
              rw [hleft] at hkey
              exact ((ih h).trans hvalue).trans ((List.suffix_cons _ _).trans hkey)
            · exact (ih h).trans hkey

theorem suffix_of_openingTag? {t rest : List Char} {tag : OpeningTag}
    (h : openingTag? t = some (tag, rest)) : ∃ inner, t = '<' :: inner ∧ '>' :: rest <:+ inner := by
  unfold openingTag? at h
  split at h
  · rename_i inner
    exact ⟨inner, rfl, (suffix_of_tagTail? h).trans (List.dropWhile_suffix _)⟩
  · cases h

/-- An opening tag takes up its two brackets, at least. -/
theorem length_of_openingTag? {t rest : List Char} {tag : OpeningTag}
    (h : openingTag? t = some (tag, rest)) : rest.length + 2 ≤ t.length := by
  obtain ⟨inner, rfl, hsuffix⟩ := suffix_of_openingTag? h
  have hlen := hsuffix.length_le
  rw [List.length_cons] at hlen ⊢
  omega

/-! ### Spans of elements -/

/-- Reading from a position came to a stop with some text left. -/
structure StopsAt (pos : Nat) (t : List Char) (stop : Nat) (rest : List Char) : Prop where
  place : stop + rest.length = pos + t.length
  shorter : rest.length < t.length

/-- The stops of elements and of children, whatever the number of steps. -/
theorem stopsAt_of_reading (fuel : Nat) :
    (∀ {pos t e rest}, elementAt? fuel pos t = some (e, rest) → StopsAt pos t e.stop rest) ∧
    (∀ {pos read nodes t ns stop rest},
      childrenAt? fuel pos read nodes t = some (ns, stop, rest) → StopsAt pos t stop rest) := by
  induction fuel with
  | zero => exact ⟨fun h => (by cases h), fun h => (by cases h)⟩
  | succ fuel ih =>
    obtain ⟨ihElement, ihChildren⟩ := ih
    constructor
    · intro pos t e rest h
      simp only [elementAt?, Option.bind_eq_bind, Option.bind_eq_some_iff] at h
      obtain ⟨⟨tag, behind⟩, htag, h⟩ := h
      have hlen := length_of_openingTag? htag
      dsimp only at h
      split at h
      · cases h
        exact ⟨by dsimp only; omega, by omega⟩
      · obtain ⟨⟨nodes, stop, last⟩, hch, h⟩ := Option.bind_eq_some_iff.1 h
        cases h
        obtain ⟨hplace, hshort⟩ := ihChildren hch
        exact ⟨by dsimp only; omega, by dsimp only; omega⟩
    · intro pos read nodes t ns stop rest h
      cases t with
      | nil => cases h
      | cons c t =>
        simp only [childrenAt?] at h
        split at h
        · simp only [Option.map_eq_some_iff, Prod.mk.injEq] at h
          obtain ⟨i, hi, -, rfl, rfl⟩ := h
          have hlt := lt_length_of_find? hi
          rw [List.length_cons] at hlt
          exact ⟨by simp only [List.length_drop, List.length_cons]; omega,
            by simp only [List.length_drop, List.length_cons]; omega⟩
        · split at h
          · rename_i e left hchild
            have he : elementAt? fuel pos (c :: t) = some (e, left) := by
              split at hchild
              · exact hchild
              · cases hchild
            obtain ⟨hplace, hshort⟩ := ihElement he
            obtain ⟨hplace', hshort'⟩ := ihChildren h
            exact ⟨by omega, by omega⟩
          · split at h
            · split at h
              · cases h
              · rename_i n hn
                have hlt := lt_length_of_balancedLength? hn
                obtain ⟨hplace, hshort⟩ := ihChildren h
                rw [List.length_drop] at hplace hshort
                exact ⟨by omega, by omega⟩
            · obtain ⟨hplace, hshort⟩ := ihChildren h
              exact ⟨by rw [List.length_cons]; omega, by rw [List.length_cons]; omega⟩

/-- An element lies in its text from the position it is read at, and takes up some of it. -/
theorem span_of_parseElement? {t : List Char} {i : Nat} {e : Element}
    (h : parseElement? t i = some e) : e.start = i ∧ i < e.stop ∧ e.stop ≤ t.length := by
  obtain ⟨⟨e, rest⟩, he, rfl⟩ := Option.map_eq_some_iff.1 h
  obtain ⟨hplace, hshort⟩ := (stopsAt_of_reading _).1 he
  rw [List.length_drop] at hplace hshort
  exact ⟨start_of_elementAt? he, by dsimp only; omega, by dsimp only; omega⟩

/-! ### Enough steps -/

/-- Any two numbers of steps that are enough for the text read the same. -/
theorem reading_fuel (fuel : Nat) :
    (∀ {fuel' pos t}, t.length ≤ fuel → t.length ≤ fuel' →
      elementAt? fuel pos t = elementAt? fuel' pos t) ∧
    (∀ {fuel' pos read nodes t}, t.length < fuel → t.length < fuel' →
      childrenAt? fuel pos read nodes t = childrenAt? fuel' pos read nodes t) := by
  induction fuel with
  | zero =>
    refine ⟨?_, fun h => by omega⟩
    intro fuel' pos t h _
    rw [List.length_eq_zero_iff.1 (Nat.le_zero.1 h)]
    cases fuel' <;> rfl
  | succ fuel ih =>
    obtain ⟨ihElement, ihChildren⟩ := ih
    constructor
    · intro fuel' pos t h h'
      cases fuel' with
      | zero =>
        rw [List.length_eq_zero_iff.1 (Nat.le_zero.1 h')]
        rfl
      | succ fuel' =>
        simp only [elementAt?]
        cases ht : openingTag? t with
        | none => rfl
        | some found =>
          have hlen := length_of_openingTag? ht
          simp only [Option.bind_eq_bind, Option.bind_some]
          have hchildren {pos : Nat} {read : List Char} {nodes : List Node} :
              childrenAt? fuel pos read nodes found.2 = childrenAt? fuel' pos read nodes found.2 :=
            ihChildren (by omega) (by omega)
          rw [hchildren]
    · intro fuel' pos read nodes t h h'
      cases fuel' with
      | zero => omega
      | succ fuel' =>
        cases t with
        | nil => rfl
        | cons c t =>
          rw [List.length_cons] at h h'
          simp only [childrenAt?]
          have hlen : (c :: t).length ≤ fuel ∧ (c :: t).length ≤ fuel' := by
            rw [List.length_cons]
            omega
          have helement {pos : Nat} : elementAt? fuel pos (c :: t) = elementAt? fuel' pos (c :: t) :=
            ihElement hlen.1 hlen.2
          rw [helement]
          split
          · rfl
          · split
            · rename_i e left hchild
              have he : elementAt? fuel' pos (c :: t) = some (e, left) := by
                split at hchild
                · exact hchild
                · cases hchild
              have hshort := ((stopsAt_of_reading fuel').1 he).shorter
              rw [List.length_cons] at hshort
              exact ihChildren (by omega) (by omega)
            · split
              · split
                · rfl
                · exact ihChildren (by simp only [List.length_drop, List.length_cons]; omega)
                    (by simp only [List.length_drop, List.length_cons]; omega)
              · exact ihChildren (by omega) (by omega)

/-- Reading an element never ends for want of steps. -/
theorem parseElement?_fuel {t : List Char} {i fuel : Nat} (h : t.length ≤ fuel) :
    (elementAt? fuel i (t.drop i)).map (·.1) = parseElement? t i := by
  have hsame : elementAt? fuel i (t.drop i) = elementAt? ((t.drop i).length + 2) i (t.drop i) :=
    (reading_fuel fuel).1 (by rw [List.length_drop]; omega) (by omega)
  rw [parseElement?, hsame]

/-! ### The search -/

/-- The elements that the search finds one after the other from a position on, until it finds none. -/
inductive Swept (t : List Char) : Nat → List Element → Prop where
  | done {start : Nat} : elementIn? t start = none → Swept t start []
  | found {start : Nat} {e : Element} {es : List Element} : elementIn? t start = some e →
      parseElement? t e.start = some e → start ≤ e.start → e.start < e.stop → e.stop ≤ t.length →
      Swept t e.stop es → Swept t start (e :: es)

/-- What the search finds is an element behind its start. -/
theorem elementIn?_eq_some {t : List Char} {start : Nat} {e : Element}
    (h : elementIn? t start = some e) :
    parseElement? t e.start = some e ∧ start ≤ e.start ∧ e.start < e.stop ∧ e.stop ≤ t.length := by
  obtain ⟨m, -, hm⟩ := List.exists_of_findSome?_eq_some h
  dsimp only at hm
  split at hm
  · obtain ⟨hstart, hlt, hle⟩ := span_of_parseElement? hm
    rw [hstart]
    exact ⟨hm, Nat.le_add_right _ _, hlt, hle⟩
  · cases hm

/-- Each element is behind the one before, so there are no more of them than characters. -/
theorem spansFrom_swept (t : List Char) {fuel start : Nat} (h : t.length < start + fuel) :
    ∃ es, Swept t start es ∧ spansFrom t fuel start = es.map fun e => (e.start, e.stop) := by
  induction fuel generalizing start with
  | zero =>
    refine ⟨[], .done ?_, rfl⟩
    cases he : elementIn? t start with
    | none => rfl
    | some e =>
      obtain ⟨-, hstart, hlt, hle⟩ := elementIn?_eq_some he
      omega
  | succ fuel ih =>
    rw [spansFrom]
    cases he : elementIn? t start with
    | none => exact ⟨[], .done he, rfl⟩
    | some e =>
      obtain ⟨hparse, hstart, hlt, hle⟩ := elementIn?_eq_some he
      have hbound : t.length < e.stop + fuel := by omega
      obtain ⟨es, hes, hspans⟩ := ih hbound
      exact ⟨e :: es, .found he hparse hstart hlt hle hes, by rw [List.map_cons, ← hspans]⟩

/-! ### Bytes -/

def utf8 (t : List Char) : List UInt8 := t.flatMap String.utf8EncodeChar

/-- Bytes of which those at some places are overwritten by spaces, line breaks excepted. -/
structure Overwritten (place : Nat → Prop) (old new : List UInt8) : Prop where
  length_eq : new.length = old.length
  kept : ∀ n, ¬ place n → new[n]? = old[n]?
  blanked : ∀ n, place n → new[n]? = old[n]?.map fun b => if b = 10 then 10 else 32

namespace Overwritten

theorem nil (place : Nat → Prop) : Overwritten place [] [] := ⟨rfl, fun _ _ => rfl, fun _ _ => rfl⟩

/-- Texts side by side are overwritten side by side, the places of the second behind the first. -/
theorem append {place : Nat → Prop} {old old' new new' : List UInt8}
    (h : Overwritten place old new) (h' : Overwritten (fun n => place (old.length + n)) old' new') :
    Overwritten place (old ++ old') (new ++ new') where
  length_eq := by rw [List.length_append, List.length_append, h.length_eq, h'.length_eq]
  kept n hn := by
    rcases Nat.lt_or_ge n old.length with hlt | hge
    · rw [List.getElem?_append_left (h.length_eq ▸ hlt), List.getElem?_append_left hlt, h.kept n hn]
    · rw [List.getElem?_append_right (h.length_eq ▸ hge), List.getElem?_append_right hge,
        h.length_eq]
      exact h'.kept _ (by rwa [Nat.add_sub_cancel' hge])
  blanked n hn := by
    rcases Nat.lt_or_ge n old.length with hlt | hge
    · rw [List.getElem?_append_left (h.length_eq ▸ hlt), List.getElem?_append_left hlt,
        h.blanked n hn]
    · rw [List.getElem?_append_right (h.length_eq ▸ hge), List.getElem?_append_right hge,
        h.length_eq]
      exact h'.blanked _ (by rwa [Nat.add_sub_cancel' hge])

/-- A byte stays or becomes a space. -/
theorem byte {place : Nat → Prop} {old new : List UInt8} (h : Overwritten place old new) (n : Nat) :
    new[n]? = old[n]? ∨ place n ∧ new[n]? = some 32 := by
  by_cases hn : place n
  · have hb := h.blanked n hn
    cases ho : old[n]? with
    | none => exact .inl (by rw [hb, ho]; rfl)
    | some b =>
      rw [ho, Option.map_some] at hb
      by_cases hnl : b = 10
      · exact .inl (by rw [hb, if_pos hnl, hnl])
      · exact .inr ⟨hn, by rw [hb, if_neg hnl]⟩
  · exact .inl (h.kept n hn)

/-- Line breaks stay where they are, and there are no others. -/
theorem newline_iff {place : Nat → Prop} {old new : List UInt8} (h : Overwritten place old new)
    (n : Nat) : new[n]? = some 10 ↔ old[n]? = some 10 := by
  by_cases hn : place n
  · rw [h.blanked n hn]
    cases old[n]? with
    | none => simp
    | some b =>
      rw [Option.map_some, Option.some_inj, Option.some_inj]
      split <;> simp_all
  · rw [h.kept n hn]

/-- Bytes of no such place. -/
theorem outside {place : Nat → Prop} {old : List UInt8} (h : ∀ n < old.length, ¬ place n) :
    Overwritten place old old := by
  refine ⟨rfl, fun _ _ => rfl, fun n hn => ?_⟩
  rw [List.getElem?_eq_none (Nat.le_of_not_lt fun hlt => h n hlt hn)]
  rfl

/-- Bytes of such places only, none of them a line break. -/
theorem inside {place : Nat → Prop} {old : List UInt8} (h : ∀ n < old.length, place n)
    (hb : 10 ∉ old) : Overwritten place old (List.replicate old.length 32) := by
  refine ⟨List.length_replicate, fun n hn => ?_, fun n _ => ?_⟩
  · have hge : old.length ≤ n := Nat.le_of_not_lt fun hlt => hn (h n hlt)
    rw [List.getElem?_eq_none hge, List.getElem?_eq_none (List.length_replicate ▸ hge)]
  · rcases Nat.lt_or_ge n old.length with hlt | hge
    · have hne : old[n] ≠ 10 := fun he => hb (he ▸ List.getElem_mem hlt)
      rw [List.getElem?_replicate_of_lt hlt, List.getElem?_eq_getElem hlt, Option.map_some,
        if_neg hne]
    · rw [List.getElem?_eq_none hge, List.getElem?_eq_none (List.length_replicate ▸ hge)]
      rfl

theorem newline (place : Nat → Prop) : Overwritten place [10] [10] := by
  refine ⟨rfl, fun _ _ => rfl, fun n _ => ?_⟩
  cases n <;> rfl

end Overwritten

theorem utf8_cons (c : Char) (t : List Char) : utf8 (c :: t) = String.utf8EncodeChar c ++ utf8 t :=
  List.flatMap_cons

theorem length_utf8 (t : List Char) : (utf8 t).length = byteLength t := by
  induction t with
  | nil => rfl
  | cons c t ih =>
    rw [utf8_cons, List.length_append, String.length_utf8EncodeChar, byteLength, ih]

theorem utf8_append (u w : List Char) : utf8 (u ++ w) = utf8 u ++ utf8 w := List.flatMap_append

theorem utf8_replicate_space (n : Nat) : utf8 (List.replicate n ' ') = List.replicate n 32 := by
  induction n with
  | zero => rfl
  | succ n ih =>
    rw [List.replicate_succ, List.replicate_succ, ← ih]
    rfl

/-- No character but the line break has a byte in common with it. -/
theorem newline_notMem_encode {c : Char} (h : c ≠ '\n') : 10 ∉ String.utf8EncodeChar c := by
  have hc : c.val.toNat ≠ 10 := by
    intro he
    apply h
    apply Char.ext
    apply UInt32.toNat_inj.1
    rw [he]
    rfl
  have hbyte : ∀ n, n < 256 → n ≠ 10 → (10 : UInt8) ≠ UInt8.ofNat n := by
    intro n hn hne he
    have hto := congrArg UInt8.toNat he
    rw [UInt8.toNat_ofNat', Nat.mod_eq_of_lt hn] at hto
    exact hne hto.symm
  unfold String.utf8EncodeChar
  dsimp only
  split
  · simp only [List.mem_cons, List.not_mem_nil, or_false]
    exact hbyte _ (by omega) hc
  · split
    · simp only [List.mem_cons, List.not_mem_nil, or_false, not_or]
      exact ⟨hbyte _ (by omega) (by omega), hbyte _ (by omega) (by omega)⟩
    · split
      · simp only [List.mem_cons, List.not_mem_nil, or_false, not_or]
        exact ⟨hbyte _ (by omega) (by omega), hbyte _ (by omega) (by omega),
          hbyte _ (by omega) (by omega)⟩
      · simp only [List.mem_cons, List.not_mem_nil, or_false, not_or]
        exact ⟨hbyte _ (by omega) (by omega), hbyte _ (by omega) (by omega),
          hbyte _ (by omega) (by omega), hbyte _ (by omega) (by omega)⟩

/-! ### Masked bytes -/

/-- A byte offset inside one of the elements. -/
def Covered (t : List Char) (es : List Element) (n : Nat) : Prop :=
  ∃ e ∈ es, byteOffset t e.start ≤ n ∧ n < byteOffset t e.stop

def IsBoundary (t : List Char) (n : Nat) : Prop := ∃ i ≤ t.length, byteOffset t i = n

/-- The bytes of a character lie behind a position when the character does. -/
theorem byteOffset_le_iff (pre w : List Char) {c : Char} {i k : Nat} (hk : k < c.utf8Size) :
    byteOffset (pre ++ c :: w) i ≤ byteLength pre + k ↔ i ≤ pre.length := by
  constructor
  · intro h
    refine Nat.le_of_not_lt fun hlt => ?_
    have hpre : pre ++ [c] <+: (pre ++ c :: w).take i := by
      rw [List.prefix_take_iff]
      exact ⟨⟨w, by simp⟩, by rw [List.length_append, List.length_singleton]; exact hlt⟩
    have hle := byteLength_le_of_prefix hpre
    rw [byteLength_append, byteLength, byteLength] at hle
    rw [byteOffset] at h
    omega
  · intro h
    rw [byteOffset, List.take_append_of_le_length h]
    have hle := byteLength_le_of_prefix (List.take_prefix i pre)
    omega

theorem covered_iff (pre w : List Char) (es : List Element) {c : Char} {k : Nat}
    (hk : k < c.utf8Size) :
    Covered (pre ++ c :: w) es (byteLength pre + k) ↔
      (es.map fun e => (e.start, e.stop)).any (fun s => s.1 ≤ pre.length && pre.length < s.2) =
        true := by
  simp only [Covered, byteOffset_le_iff pre w hk, ← Nat.not_le, List.any_map, List.any_eq_true,
    Function.comp_apply, Bool.and_eq_true, decide_eq_true_eq]

def blank (es : List Element) (c : Char) (i : Nat) : List Char :=
  if c != '\n' && (es.map fun e => (e.start, e.stop)).any (fun s => s.1 ≤ i && i < s.2) then
    List.replicate c.utf8Size ' '
  else [c]

/-- A masked character takes up the same bytes, which are overwritten if an element covers it. -/
theorem utf8_blank (pre w : List Char) (es : List Element) (c : Char) :
    Overwritten (fun k => Covered (pre ++ c :: w) es (byteLength pre + k)) (String.utf8EncodeChar c)
      (utf8 (blank es c pre.length)) := by
  have hlen := String.length_utf8EncodeChar c
  have hself : utf8 [c] = String.utf8EncodeChar c := by
    rw [utf8_cons]
    exact List.append_nil _
  rw [blank]
  by_cases hc : c = '\n'
  · subst hc
    exact Overwritten.newline _
  · by_cases hin : (es.map fun e => (e.start, e.stop)).any
        (fun s => s.1 ≤ pre.length && pre.length < s.2) = true
    · rw [if_pos (by simp [hc, hin]), utf8_replicate_space, ← hlen]
      exact .inside (fun k hk => (covered_iff pre w es (hlen ▸ hk)).2 hin) (newline_notMem_encode hc)
    · rw [if_neg (by simp [hin]), hself]
      exact .outside fun k hk hcov => hin ((covered_iff pre w es (hlen ▸ hk)).1 hcov)

/-- Masking from a position on, by induction on the text behind it. -/
theorem utf8_flatMap_blank (es : List Element) (pre w : List Char) :
    Overwritten (fun k => Covered (pre ++ w) es (byteLength pre + k)) (utf8 w)
      (utf8 ((w.zipIdx pre.length).flatMap fun (c, i) => blank es c i)) := by
  induction w generalizing pre with
  | nil => exact .nil _
  | cons c w ih =>
    have hrest := ih (pre ++ [c])
    rw [List.length_append, List.length_singleton, List.append_assoc, List.singleton_append] at hrest
    rw [List.zipIdx_cons, List.flatMap_cons, utf8_append, utf8_cons]
    refine (utf8_blank pre w es c).append ?_
    have hlen : byteLength (pre ++ [c]) = byteLength pre + c.utf8Size := by
      rw [byteLength_append, byteLength, byteLength, Nat.add_zero]
    simpa only [hlen, String.length_utf8EncodeChar, Nat.add_assoc] using hrest

theorem maskBytes_eq {t : List Char} {es : List Element}
    (h : elementSpans t = es.map fun e => (e.start, e.stop)) :
    maskBytes t = t.zipIdx.flatMap fun (c, i) => blank es c i := by
  rw [maskBytes, maskWith, h]
  rfl

/-- What is masked in front of a position takes up the same bytes. -/
theorem isBoundary_blank (es : List Element) {t : List Char} {n : Nat} (h : IsBoundary t n) :
    IsBoundary (t.zipIdx.flatMap fun (c, i) => blank es c i) n := by
  obtain ⟨i, -, rfl⟩ := h
  have hfront := (utf8_flatMap_blank es [] (t.take i)).length_eq
  rw [List.length_nil, length_utf8, length_utf8] at hfront
  have hsplit : t.zipIdx = (t.take i).zipIdx ++ (t.drop i).zipIdx (t.take i).length := by
    conv => lhs; rw [← List.take_append_drop i t, List.zipIdx_append, Nat.zero_add]
  rw [hsplit, List.flatMap_append]
  refine ⟨((t.take i).zipIdx.flatMap fun (c, i) => blank es c i).length, ?_, ?_⟩
  · rw [List.length_append]
    exact Nat.le_add_right _ _
  · rw [byteOffset, List.take_left, hfront, byteOffset]

/-- Masking comes to an end and keeps every offset: the elements are found one behind the other, the
bytes inside them become spaces up to line breaks, and no other byte changes. -/
theorem maskBytes_keeps_offsets (t : List Char) :
    (∀ i fuel, t.length ≤ fuel → (elementAt? fuel i (t.drop i)).map (·.1) = parseElement? t i) ∧
    ∃ es : List Element, Swept t 0 es ∧
      Overwritten (Covered t es) (utf8 t) (utf8 (maskBytes t)) ∧
      (∀ n : Nat, (utf8 (maskBytes t))[n]? = (utf8 t)[n]? ∨
        Covered t es n ∧ (utf8 (maskBytes t))[n]? = some 32) ∧
      (∀ n : Nat, (utf8 (maskBytes t))[n]? = some 10 ↔ (utf8 t)[n]? = some 10) ∧
      ∀ n, IsBoundary t n → IsBoundary (maskBytes t) n := by
  refine ⟨fun i fuel h => parseElement?_fuel h, ?_⟩
  have hbound : t.length < 0 + (t.length + 1) := by omega
  obtain ⟨es, hswept, hspans⟩ := spansFrom_swept t hbound
  have hbytes : Overwritten (Covered t es) (utf8 t) (utf8 (maskBytes t)) := by
    have hfrom := utf8_flatMap_blank es [] t
    rw [maskBytes_eq hspans]
    simpa only [List.nil_append, byteLength, Nat.zero_add, List.length_nil] using hfrom
  refine ⟨es, hswept, hbytes, hbytes.byte, hbytes.newline_iff, fun n hn => ?_⟩
  rw [maskBytes_eq hspans]
  exact isBoundary_blank es hn

end JsxToJinja.Markup
