import JsxToJinja.Proofs.Markup.Offsets
import JsxToJinja.Proofs.Text.Words

/-! Spans of elements. Whatever the text, a parsed element ends right behind a closing angle, and its
child elements lie one behind the other between its two tags. -/
namespace JsxToJinja.Markup
open JsxToJinja.Text JsxToJinja.Code

def tagEnd? (t : List Char) (i : Nat) : Option Nat :=
  (openingTag? (t.drop i)).map fun (_, rest) => i + ((t.drop i).length - rest.length)

/-- Text is collapsed, code is trimmed and neither is empty. -/
def Node.IsTidy : Node → Prop
  | .text s => s ≠ "" ∧ collapse s.toList = s.toList
  | .expression s => s ≠ "" ∧ trim s.toList = s.toList
  | .element _ => True

/-- How an element lies in the bytes of its text, and its children in the element. -/
structure Placed (t : List Char) (e : Element) : Prop where
  lt : byteOffset t e.start < byteOffset t e.stop
  le : byteOffset t e.stop ≤ (utf8 t).length
  boundaries : IsBoundary t (byteOffset t e.start) ∧ IsBoundary t (byteOffset t e.stop)
  opens : (utf8 t)[byteOffset t e.start]? = some 60
  closes : (utf8 t)[byteOffset t e.stop - 1]? = some 62
  inside : ∃ n, tagEnd? t e.start = some n ∧ byteOffset t e.start < byteOffset t n ∧
    byteOffset t n ≤ byteOffset t e.stop ∧ ∀ c ∈ e.childElements,
      byteOffset t n ≤ byteOffset t c.start ∧ byteOffset t c.stop < byteOffset t e.stop
  apart : e.childElements.Pairwise fun a b => byteOffset t a.stop ≤ byteOffset t b.start
  tidy : ∀ n ∈ e.children, n.IsTidy
  closed : e.selfClosing = true → e.children = []

inductive Nested (t : List Char) : Element → Prop where
  | intro {e : Element} : Placed t e → (∀ c ∈ e.childElements, Nested t c) → Nested t e

variable {t : List Char}

/-! ### Where a reader stops -/

/-- Reading from a position came to a stop right behind a closing angle. -/
structure Ends (t : List Char) (pos stop : Nat) (rest : List Char) : Prop where
  lt : pos < stop
  last : t.drop (stop - 1) = '>' :: rest

theorem Ends.drop_eq {pos stop : Nat} {rest : List Char} (h : Ends t pos stop rest) :
    t.drop stop = rest := by
  have hlt := h.lt
  have hstop : stop - 1 + 1 = stop := by omega
  rw [← hstop, ← List.drop_drop, h.last, List.drop_succ_cons, List.drop_zero]

theorem Ends.le {pos stop : Nat} {rest : List Char} (h : Ends t pos stop rest) :
    stop ≤ t.length := by
  have hlen := congrArg List.length h.last
  rw [List.length_drop, List.length_cons] at hlen
  have hlt := h.lt
  omega

theorem ends_of_suffix {pos : Nat} {u rest : List Char} (hu : t.drop pos = u)
    (h : '>' :: rest <:+ u) : Ends t pos (pos + (u.length - rest.length)) rest := by
  have hlen := h.length_le
  rw [List.length_cons] at hlen
  have hstop : pos + (u.length - rest.length) - 1 = pos + (u.length - ('>' :: rest).length) := by
    rw [List.length_cons]
    omega
  refine ⟨by omega, ?_⟩
  rw [hstop, ← List.drop_drop, hu, ← List.suffix_iff_eq_drop.1 h]

/-! ### Bytes at the ends -/

theorem getElem?_utf8 {w : List Char} {c : Char} {i : Nat} {b : UInt8} (h : t.drop i = c :: w)
    (hb : String.utf8EncodeChar c = [b]) : (utf8 t)[byteOffset t i]? = some b := by
  have hsplit : utf8 t = utf8 (t.take i) ++ b :: utf8 w := by
    conv => lhs; rw [← List.take_append_drop i t, h, utf8_append, utf8_cons, hb]
    rfl
  rw [hsplit, byteOffset, ← length_utf8, List.getElem?_append_right (Nat.le_refl _), Nat.sub_self]
  rfl

theorem isBoundary_byteOffset {i : Nat} (h : i ≤ t.length) : IsBoundary t (byteOffset t i) :=
  ⟨i, h, rfl⟩

theorem Ends.getElem?_last {pos stop : Nat} {rest : List Char} (h : Ends t pos stop rest) :
    (utf8 t)[byteOffset t stop - 1]? = some 62 := by
  have hlt := h.lt
  have hstop : stop - 1 + 1 = stop := by omega
  have hoffset : byteOffset t stop = byteOffset t (stop - 1) + 1 := by
    conv => lhs; rw [← hstop, byteOffset_succ h.last]
    rfl
  rw [hoffset, Nat.add_sub_cancel]
  exact getElem?_utf8 h.last rfl

/-! ### Children -/

def elements (ms : List Node) : List Element :=
  ms.filterMap fun n => match n with
    | .element c => some c
    | _ => none

/-- Children read from a position on, in front of a stop. -/
structure Gathered (t : List Char) (pos stop : Nat) (ms : List Node) : Prop where
  tidy : ∀ m ∈ ms, m.IsTidy
  within : ∀ c ∈ elements ms, pos ≤ c.start ∧ c.stop < stop
  apart : (elements ms).Pairwise fun a b => a.stop ≤ b.start
  nested : ∀ c ∈ elements ms, Nested t c

namespace Gathered
variable {pos stop : Nat} {ms : List Node}

theorem nil (t : List Char) (pos stop : Nat) : Gathered t pos stop [] :=
  ⟨by simp, by simp [elements], by simp [elements], by simp [elements]⟩

theorem text {s : String} (hs : (Node.text s).IsTidy) (h : Gathered t pos stop ms) :
    Gathered t pos stop (.text s :: ms) :=
  ⟨List.forall_mem_cons.2 ⟨hs, h.tidy⟩, h.within, h.apart, h.nested⟩

theorem code {s : String} (hs : (Node.expression s).IsTidy) (h : Gathered t pos stop ms) :
    Gathered t pos stop (.expression s :: ms) :=
  ⟨List.forall_mem_cons.2 ⟨hs, h.tidy⟩, h.within, h.apart, h.nested⟩

/-- What is read further on stands behind. -/
theorem element {c : Element} (hc : Nested t c) (hlt : c.start < c.stop) (hstop : c.stop < stop)
    (h : Gathered t c.stop stop ms) : Gathered t c.start stop (.element c :: ms) where
  tidy := List.forall_mem_cons.2 ⟨trivial, h.tidy⟩
  within := by
    refine List.forall_mem_cons.2 ⟨⟨Nat.le_refl _, hstop⟩, fun d hd => ?_⟩
    obtain ⟨hle, hd⟩ := h.within d hd
    exact ⟨by omega, hd⟩
  apart := List.pairwise_cons.2 ⟨fun d hd => (h.within d hd).1, h.apart⟩
  nested := List.forall_mem_cons.2 ⟨hc, h.nested⟩

theorem earlier {before : Nat} (hle : before ≤ pos) (h : Gathered t pos stop ms) :
    Gathered t before stop ms :=
  ⟨h.tidy, fun c hc => ⟨Nat.le_trans hle (h.within c hc).1, (h.within c hc).2⟩, h.apart, h.nested⟩

end Gathered

/-- The text read so far adds a child or none. -/
theorem exists_text (read : List Char) (nodes : List Node) :
    ∃ ts, (withText read nodes).reverse = nodes.reverse ++ ts ∧
      ∀ {pos stop ms}, Gathered t pos stop ms → Gathered t pos stop (ts ++ ms) := by
  simp only [withText]
  split
  · exact ⟨[], (List.append_nil _).symm, fun h => h⟩
  · rename_i htext
    refine ⟨[.text (String.ofList (collapse read.reverse))], List.reverse_cons, fun h => h.text ⟨?_, ?_⟩⟩
    · simpa using htext
    · rw [String.toList_ofList, collapse_collapse]

/-- Closed braces add a child or none. -/
theorem exists_code (code : List Char) (nodes : List Node) :
    ∃ ts, (if (trim code).isEmpty || isRemark (trim code) then nodes
        else .expression (String.ofList (trim code)) :: nodes).reverse = nodes.reverse ++ ts ∧
      ∀ {pos stop ms}, Gathered t pos stop ms → Gathered t pos stop (ts ++ ms) := by
  split
  · exact ⟨[], (List.append_nil _).symm, fun h => h⟩
  · rename_i hcode
    rw [Bool.or_eq_true, not_or] at hcode
    refine ⟨[.expression (String.ofList (trim code))], List.reverse_cons, fun h => h.code ⟨?_, ?_⟩⟩
    · simpa using hcode.1
    · rw [String.toList_ofList, (trimmed_trim code).trim_eq]

/-! ### Reading -/

/-- An element whose children are gathered between its tags. -/
theorem placed_of_ends {e : Element} {w rest : List Char} {n : Nat}
    (hopen : t.drop e.start = '<' :: w) (hends : Ends t e.start e.stop rest)
    (htag : tagEnd? t e.start = some n) (hn : e.start < n) (hle : n ≤ e.stop)
    (hms : Gathered t n e.stop e.children) (hclosed : e.selfClosing = true → e.children = []) :
    Placed t e where
  lt := byteOffset_lt hends.lt hends.le
  le := by
    rw [length_utf8]
    exact byteLength_le_of_prefix (List.take_prefix _ _)
  boundaries :=
    ⟨isBoundary_byteOffset (Nat.le_trans (Nat.le_of_lt hends.lt) hends.le),
      isBoundary_byteOffset hends.le⟩
  opens := getElem?_utf8 hopen rfl
  closes := hends.getElem?_last
  inside := by
    refine ⟨n, htag, byteOffset_lt hn (Nat.le_trans hle hends.le), byteOffset_le hle, fun c hc => ?_⟩
    obtain ⟨hstart, hstop⟩ := hms.within c hc
    exact ⟨byteOffset_le hstart, byteOffset_lt hstop hends.le⟩
  apart := hms.apart.imp byteOffset_le
  tidy := hms.tidy
  closed := hclosed

/-- Elements are nested and children are gathered, whatever the number of steps. -/
theorem nested_of_reading (t : List Char) (fuel : Nat) :
    (∀ {pos e rest}, elementAt? fuel pos (t.drop pos) = some (e, rest) →
      Ends t pos e.stop rest ∧ Nested t e) ∧
    (∀ {pos read nodes ns stop rest},
      childrenAt? fuel pos read nodes (t.drop pos) = some (ns, stop, rest) →
      Ends t pos stop rest ∧ ∃ ms, ns.reverse = nodes.reverse ++ ms ∧ Gathered t pos stop ms) := by
  induction fuel with
  | zero => exact ⟨fun h => (by cases h), fun h => (by cases h)⟩
  | succ fuel ih =>
    obtain ⟨ihElement, ihChildren⟩ := ih
    constructor
    · intro pos e rest h
      simp only [elementAt?, Option.bind_eq_bind, Option.bind_eq_some_iff] at h
      obtain ⟨⟨tag, behind⟩, htag, h⟩ := h
      obtain ⟨inner, hopen, hsuffix⟩ := suffix_of_openingTag? htag
      have hends : Ends t pos (pos + ((t.drop pos).length - behind.length)) behind :=
        ends_of_suffix rfl (hopen ▸ hsuffix.trans (List.suffix_cons _ _))
      have htagEnd : tagEnd? t pos = some (pos + ((t.drop pos).length - behind.length)) := by
        rw [tagEnd?, htag, Option.map_some]
      dsimp only at h
      generalize pos + ((t.drop pos).length - behind.length) = n at h hends htagEnd
      split at h
      · cases h
        refine ⟨hends, .intro ?_ (by simp [Element.childElements])⟩
        exact placed_of_ends hopen hends htagEnd hends.lt (Nat.le_refl _) (.nil ..) fun _ => rfl
      · rename_i hopenTag
        obtain ⟨⟨nodes, stop, last⟩, hch, h⟩ := Option.bind_eq_some_iff.1 h
        cases h
        rw [← hends.drop_eq] at hch
        obtain ⟨hstop, ms, hnodes, hms⟩ := ihChildren hch
        rw [List.reverse_nil, List.nil_append] at hnodes
        have hwhole : Ends t pos stop last := ⟨Nat.lt_trans hends.lt hstop.lt, hstop.last⟩
        rw [← hnodes] at hms
        refine ⟨hwhole, .intro ?_ hms.nested⟩
        exact placed_of_ends hopen hwhole htagEnd hends.lt (Nat.le_of_lt hstop.lt) hms
          fun hclosed => absurd hclosed hopenTag
    · intro pos read nodes ns stop rest h
      cases hhere : t.drop pos with
      | nil => rw [hhere] at h; cases h
      | cons c w =>
        have hnext (n : Nat) : (c :: w).drop n = t.drop (pos + n) := by
          rw [← hhere, List.drop_drop]
        obtain ⟨ts, hts, hbefore⟩ := exists_text (t := t) read nodes
        rw [hhere] at h
        simp only [childrenAt?] at h
        split at h
        · simp only [Option.map_eq_some_iff, Prod.mk.injEq] at h
          obtain ⟨i, hi, rfl, rfl, rfl⟩ := h
          have hlast := drop_find? hi
          rw [hnext] at hlast
          refine ⟨⟨by omega, ?_⟩, ts, hts, ?_⟩
          · rwa [Nat.add_sub_cancel]
          · simpa using hbefore (.nil ..)
        · split at h
          · rename_i e left hchild
            have he : elementAt? fuel pos (t.drop pos) = some (e, left) := by
              rw [hhere]
              split at hchild
              · exact hchild
              · cases hchild
            obtain ⟨hends, hnested⟩ := ihElement he
            rw [← hends.drop_eq] at h
            obtain ⟨hstop, ms, hns, hms⟩ := ihChildren h
            have hlt := hends.lt
            obtain rfl := start_of_elementAt? he
            refine ⟨⟨Nat.lt_trans hlt hstop.lt, hstop.last⟩, ts ++ .element e :: ms, ?_,
              hbefore (.element hnested hlt hstop.lt hms)⟩
            rw [hns, List.reverse_cons, hts, List.append_assoc, List.append_assoc,
              List.singleton_append]
          · split at h
            · split at h
              · cases h
              · rename_i n hn
                rw [hnext] at h
                obtain ⟨hstop, ms, hns, hms⟩ := ihChildren h
                obtain ⟨cs, hcs, hcode⟩ := exists_code (t := t) (slice (c :: w) 1 n)
                  (withText read nodes)
                have hlt := hstop.lt
                refine ⟨⟨by omega, hstop.last⟩, ts ++ (cs ++ ms), ?_,
                  hbefore (hcode (hms.earlier (by omega)))⟩
                rw [hns, hcs, hts, List.append_assoc, List.append_assoc]
            · have hw : w = t.drop (pos + 1) := hnext 1
              rw [hw] at h
              obtain ⟨hstop, ms, hns, hms⟩ := ihChildren h
              exact ⟨⟨Nat.lt_of_succ_lt hstop.lt, hstop.last⟩, ms, hns, hms.earlier (by omega)⟩

/-- From every start between characters, and however malformed the text, a parsed element and the
elements in it are properly nested. -/
theorem parsed_elements_are_nested {t : List Char} {n i : Nat} {e : Element}
    (hn : position? t n = some i) (he : parseElement? t i = some e) :
    byteOffset t e.start = n ∧ Nested t e := by
  obtain ⟨⟨e, rest⟩, hread, rfl⟩ := Option.map_eq_some_iff.1 he
  refine ⟨?_, ((nested_of_reading t _).1 hread).2⟩
  rw [start_of_elementAt? hread]
  exact (byteOffset_of_position? hn).2

/-- One tag never ends, another is closed under a wrong name and the last one not at all. -/
def malformed : List Char := "é <a x=\x7b1\x7d>ü <b/>\x7b c \x7d<q </i><u>".toList

theorem malformed_element_is_nested :
    position? malformed 3 = some 2 ∧ ∃ e, parseElement? malformed 2 = some e ∧
      byteOffset malformed e.stop = 31 ∧
      (e.childElements.map fun c => (byteOffset malformed c.start, byteOffset malformed c.stop)) =
        [(15, 19)] ∧
      byteOffset malformed e.start = 3 ∧ Nested malformed e := by
  have hn : position? malformed 3 = some 2 := by decide
  have hspans : (parseElement? malformed 2).map (fun e => (byteOffset malformed e.stop,
      e.childElements.map fun c => (byteOffset malformed c.start, byteOffset malformed c.stop))) =
        some (31, [(15, 19)]) := by decide +kernel
  obtain ⟨e, he, hspans⟩ := Option.map_eq_some_iff.1 hspans
  obtain ⟨hstop, hchildren⟩ := Prod.mk.inj hspans
  exact ⟨hn, e, he, hstop, hchildren, parsed_elements_are_nested hn he⟩

end JsxToJinja.Markup
