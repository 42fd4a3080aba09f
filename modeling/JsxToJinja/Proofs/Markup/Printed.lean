import JsxToJinja.Proofs.Markup.Trees

/-! Printing of elements, and the way back: reading a printed element gives the tree it was printed
from, placed where it stands. -/
namespace JsxToJinja.Markup
open JsxToJinja.Text JsxToJinja.Code

/-! ### Printing -/

def PropValue.print : PropValue → List Char
  | literal s => '=' :: '\x22' :: (s.toList ++ ['\x22'])
  | expression code => '=' :: '\x7b' :: (code.toList ++ ['\x7d'])
  | flag => []

def Property.print (p : Property) : List Char := ' ' :: (p.name.toList ++ p.value.print)

def printSpread (code : String) : List Char :=
  ' ' :: '\x7b' :: (("...".toList ++ code.toList) ++ ['\x7d'])

/-- What stands behind the name of a tag: properties, spreads and the end. -/
def printTail (closed : Bool) (props : List Property) (spreads : List String) : List Char :=
  props.flatMap Property.print ++
    (spreads.flatMap printSpread ++ if closed then [' ', '/', '>'] else ['>'])

def printTag (name : String) (props : List Property) (spreads : List String) (closed : Bool) :
    List Char :=
  '<' :: (name.toList ++ printTail closed props spreads)

mutual

def Element.print : Element → List Char
  | ⟨name, props, spreads, _, true, _, _⟩ => printTag name props spreads true
  | ⟨name, props, spreads, children, false, _, _⟩ =>
    printTag name props spreads false ++ (printNodes children ++ closingTag name [])

def Node.print : Node → List Char
  | .text s => s.toList
  | .expression code => '\x7b' :: (code.toList ++ ['\x7d'])
  | .element e => e.print

def printNodes : List Node → List Char
  | [] => []
  | n :: nodes => n.print ++ printNodes nodes

end

mutual

/-- The same element with the spans it has when it is printed from a position on. -/
def Element.placedAt : Element → Nat → Element
  | ⟨name, props, spreads, children, closed, a, b⟩, pos =>
    ⟨name, props, spreads, placeNodes children (pos + (printTag name props spreads closed).length),
      closed, pos, pos + (Element.print ⟨name, props, spreads, children, closed, a, b⟩).length⟩

def Node.placedAt : Node → Nat → Node
  | .element e, pos => .element (e.placedAt pos)
  | .text s, _ => .text s
  | .expression code, _ => .expression code

def placeNodes : List Node → Nat → List Node
  | [], _ => []
  | n :: nodes, pos => n.placedAt pos :: placeNodes nodes (pos + n.print.length)

end

/-! ### What can be printed -/

/-- Code whose literals close and whose brackets are properly nested, without blanks at its ends. -/
structure IsBalanced (code : String) : Prop where
  sealed : Sealed [] code.toList
  trimmed : Trimmed code.toList

def PropValue.Printable : PropValue → Prop
  | literal s => '\x22' ∉ s.toList
  | expression code => IsBalanced code
  | flag => True

structure Property.Printable (p : Property) : Prop where
  ne_nil : p.name.toList ≠ []
  chars : ∀ c ∈ p.name.toList, isNameChar c = true
  value : p.value.Printable

structure PrintableSpread (code : String) : Prop where
  balanced : IsBalanced code
  noDots : startsWith code.toList "...".toList = false

/-- A letter and any name characters behind it. -/
structure IsTagName (name : String) : Prop where
  head : name.toList.head?.any Char.isAlpha = true
  chars : ∀ c ∈ name.toList, isNameChar c = true

/-- Text between tags as it is kept: single blanks between its words and none at its ends. -/
structure IsCopy (s : String) : Prop where
  ne_nil : s.toList ≠ []
  collapsed : collapse s.toList = s.toList
  plain : ∀ c ∈ s.toList, c ≠ '<' ∧ c ≠ '\x7b'

/-- Code between braces. What begins and ends like a comment counts as one. -/
structure IsCode (code : String) : Prop where
  ne_nil : code.toList ≠ []
  balanced : IsBalanced code
  noRemark : isRemark code.toList = false

def Node.isText : Node → Bool
  | text _ => true
  | _ => false

/-- No text stands right behind another one. -/
def textsApart : List Node → Bool
  | [] => true
  | n :: nodes => !(n.isText && nodes.head?.any Node.isText) && textsApart nodes

/-- A tree that can be printed. A fragment has no properties and is not closed by itself. -/
inductive Printable : Element → Prop where
  | closed {name : String} {props : List Property} {spreads : List String} {start stop : Nat} :
      IsTagName name → (∀ p ∈ props, p.Printable) → (∀ s ∈ spreads, PrintableSpread s) →
      Printable ⟨name, props, spreads, [], true, start, stop⟩
  | paired {name : String} {props : List Property} {spreads : List String} {children : List Node}
      {start stop : Nat} :
      IsTagName name ∨ (name = "" ∧ props = []) → (∀ p ∈ props, p.Printable) →
      (∀ s ∈ spreads, PrintableSpread s) → (∀ s, .text s ∈ children → IsCopy s) →
      (∀ code, .expression code ∈ children → IsCode code) →
      (∀ e, .element e ∈ children → Printable e) → textsApart children = true →
      Printable ⟨name, props, spreads, children, false, start, stop⟩

/-- One element lies within another, at any depth. -/
inductive Inside : Element → Element → Prop where
  | child {c e : Element} : .element c ∈ e.children → Inside c e
  | deeper {b c e : Element} : Inside b c → .element c ∈ e.children → Inside b e

/-! ### Tags -/

section
variable {closed : Bool} {props : List Property} {spreads : List String}

theorem printTail_cons (p : Property) :
    printTail closed (p :: props) spreads = p.print ++ printTail closed props spreads := by
  simp [printTail]

theorem printTail_spread (s : String) :
    printTail closed [] (s :: spreads) = printSpread s ++ printTail closed [] spreads := by
  simp [printTail]

/-- A printed tail starts with a blank or ends the tag, and no sign of equality comes first. -/
theorem front_printTail (hp : ∀ p ∈ props, p.Printable) (closed : Bool) (spreads : List String)
    (rest : List Char) :
    (∀ c ∈ (printTail closed props spreads ++ rest).head?, isNameChar c = false) ∧
      (trimStart (printTail closed props spreads ++ rest)).head? ≠ some '=' := by
  have hspace {c : Char} (hc : isBlank c = false) (hne : c ≠ '=') (t : List Char) :
      (∀ d ∈ (' ' :: c :: t).head?, isNameChar d = false) ∧
        (trimStart (' ' :: c :: t)).head? ≠ some '=' := by
    rw [show ' ' :: c :: t = [' '] ++ c :: t from rfl, trimStart_append_cons blank_space hc]
    exact ⟨by simp; decide, by simpa using hne⟩
  cases props with
  | cons p props =>
    obtain ⟨c, t, ht⟩ := List.exists_cons_of_ne_nil (hp p (by simp)).ne_nil
    have hc : isNameChar c = true := (hp p (by simp)).chars c (by simp [ht])
    rw [printTail_cons, Property.print, ht]
    exact hspace (not_blank_of_isNameChar hc) (ne_of_isNameChar hc (by decide)) _
  | nil =>
    cases spreads with
    | cons s spreads =>
      rw [printTail_spread]
      exact hspace (by decide) (by decide) _
    | nil =>
      cases closed with
      | true => exact hspace (by decide) (by decide) _
      | false =>
        have htrim : trimStart ('>' :: rest) = '>' :: rest :=
          trimStart_append_cons blank_nil (by decide) rest
        show (∀ c ∈ ('>' :: rest).head?, isNameChar c = false) ∧ (trimStart ('>' :: rest)).head? ≠ _
        rw [htrim]
        exact ⟨by simp; decide, by simp⟩

theorem tagTail?_end (name : String) (fuel : Nat) (ps : List Property) (ss : List String)
    (rest : List Char) : tagTail? name (fuel + 1) ps ss (printTail closed [] [] ++ rest) =
      some (⟨name, ps.reverse, ss.reverse, closed⟩, rest) := by
  cases closed with
  | true =>
    have htrim : trimStart (' ' :: '/' :: '>' :: rest) = '/' :: '>' :: rest :=
      trimStart_append_cons blank_space (by decide) _
    simp [printTail, tagTail?, htrim, startsWith]
  | false =>
    have htrim : trimStart ('>' :: rest) = '>' :: rest :=
      trimStart_append_cons blank_nil (by decide) rest
    simp [printTail, tagTail?, htrim, startsWith]

/-- A printed spread is read in front of any properties. -/
theorem tagTail?_spread {s : String} (hs : PrintableSpread s) (name : String) (fuel : Nat)
    (ps : List Property) (ss : List String) (rest : List Char) :
    tagTail? name (fuel + 1) ps ss (printSpread s ++ rest) = tagTail? name fuel ps (s :: ss) rest := by
  have hsealed : Sealed [] ("...".toList ++ s.toList) :=
    (sealed_of_ordinary (by decide)).append hs.balanced.sealed
  have htrimmed : Trimmed ("...".toList ++ s.toList) := by
    by_cases hne : s.toList = []
    · rw [hne]
      exact ⟨by decide, by decide⟩
    · have hdots : Trimmed "...".toList := ⟨by decide, by decide⟩
      exact hdots.between hs.balanced.trimmed (by decide) hne []
  have htrim (t : List Char) : trimStart (' ' :: '\x7b' :: t) = '\x7b' :: t :=
    trimStart_append_cons blank_space (by decide) t
  have hspread : trim (dropRepeated "...".toList (trim ("...".toList ++ s.toList))) = s.toList := by
    rw [htrimmed.trim_eq, dropRepeated_dots hs.noDots, hs.balanced.trimmed.trim_eq]
  have hbraces := braces?_group hsealed rest
  rw [printSpread, List.cons_append, List.cons_append, List.append_assoc, List.singleton_append, tagTail?]
  simp only [htrim, hbraces]
  rw [if_neg (by simp [startsWith]), if_neg (by simp [startsWith]), if_pos (by simp [startsWith]),
    Option.bind_eq_bind, Option.bind_some, hspread, String.ofList_toList]

/-- A printed property is read in front of any others. -/
theorem tagTail?_property {p : Property} (hp : p.Printable) {rest : List Char}
    (hrest : (∀ c ∈ rest.head?, isNameChar c = false) ∧ (trimStart rest).head? ≠ some '=')
    (name : String) (fuel : Nat) (ps : List Property) (ss : List String) :
    tagTail? name (fuel + 1) ps ss (p.print ++ rest) = tagTail? name fuel (p :: ps) ss rest := by
  obtain ⟨key, value⟩ := p
  have hkey {t : List Char} (ht : ∀ c ∈ t.head?, isNameChar c = false) :=
    tagTail?_key blank_space hp.ne_nil hp.chars ht name fuel ps ss
  have hsign (t : List Char) : ∀ c ∈ ('=' :: t).head?, isNameChar c = false := by
    simp
    decide
  have htrim {c : Char} (hc : isBlank c = false) (t : List Char) : trimStart (c :: t) = c :: t :=
    trimStart_append_cons blank_nil hc t
  rw [Property.print, List.cons_append, List.append_assoc]
  cases value with
  | flag =>
    refine (hkey hrest.1).trans ?_
    split
    · rename_i he
      exact absurd (congrArg List.head? he) hrest.2
    · rw [tagTail?_trimStart, String.ofList_toList]
  | literal s =>
    have hvalue := propValue?_quoted (.inr rfl) hp.value rest
    have htext : (PropValue.literal s).print ++ rest = '=' :: '\x22' :: (s.toList ++ '\x22' :: rest) := by
      simp [PropValue.print]
    rw [htext]
    refine (hkey (hsign _)).trans ?_
    simp [htrim (c := '=') (by decide), htrim (c := '\x22') (by decide), hvalue]
  | expression code =>
    have hvalue := propValue?_braces hp.value.sealed rest
    rw [hp.value.trimmed.trim_eq] at hvalue
    have htext : (PropValue.expression code).print ++ rest =
        '=' :: '\x7b' :: (code.toList ++ '\x7d' :: rest) := by
      simp [PropValue.print]
    rw [htext]
    refine (hkey (hsign _)).trans ?_
    simp [htrim (c := '=') (by decide), htrim (c := '\x7b') (by decide), hvalue]

/-- All that is printed in a tag is read back, in its order. -/
theorem tagTail?_printTail (hp : ∀ p ∈ props, p.Printable) (hs : ∀ s ∈ spreads, PrintableSpread s)
    (name : String) {fuel : Nat} (hf : (printTail closed props spreads).length ≤ fuel)
    (ps : List Property) (ss : List String) (rest : List Char) :
    tagTail? name fuel ps ss (printTail closed props spreads ++ rest) =
      some (⟨name, ps.reverse ++ props, ss.reverse ++ spreads, closed⟩, rest) := by
  induction props generalizing fuel ps with
  | nil =>
    induction spreads generalizing fuel ss with
    | nil =>
      obtain ⟨fuel, rfl⟩ : ∃ n, fuel = n + 1 := ⟨fuel - 1, by
        cases closed <;> simp [printTail] at hf <;> omega⟩
      rw [tagTail?_end]
      simp
    | cons s spreads ih =>
      rw [printTail_spread, List.length_append, printSpread, List.length_cons] at hf
      obtain ⟨fuel, rfl⟩ : ∃ n, fuel = n + 1 := ⟨fuel - 1, by omega⟩
      rw [printTail_spread, List.append_assoc, tagTail?_spread (hs s (by simp)),
        ih (fun t ht => hs t (by simp [ht])) (s :: ss) (by omega)]
      simp
  | cons p props ih =>
    have hp' : ∀ q ∈ props, q.Printable := fun q hq => hp q (by simp [hq])
    have hrest := front_printTail hp' closed spreads rest
    rw [printTail_cons, List.length_append, Property.print, List.length_cons] at hf
    obtain ⟨fuel, rfl⟩ : ∃ n, fuel = n + 1 := ⟨fuel - 1, by omega⟩
    rw [printTail_cons, List.append_assoc, tagTail?_property (hp p (by simp)) hrest,
      ih hp' (by omega)]
    simp

end

theorem openingTag?_printTag {name : String} {props : List Property} {spreads : List String}
    (hn : ∀ c ∈ name.toList, isNameChar c = true) (hp : ∀ p ∈ props, p.Printable)
    (hs : ∀ s ∈ spreads, PrintableSpread s) (closed : Bool) (rest : List Char) :
    openingTag? (printTag name props spreads closed ++ rest) =
      some (⟨name, props, spreads, closed⟩, rest) := by
  obtain ⟨htake, hdrop⟩ := span_name hn (front_printTail hp closed spreads rest).1
  rw [printTag, List.cons_append, List.append_assoc, openingTag?, htake, hdrop,
    tagTail?_printTail hp hs _ (by simp; omega)]
  simp

/-! ### Children -/

/-- A printed element reads back from any position. -/
def ReadsBack (e : Element) : Prop :=
  ∀ (fuel pos : Nat) (rest : List Char), (e.print ++ rest).length ≤ fuel →
    elementAt? fuel pos (e.print ++ rest) = some (e.placedAt pos, rest)

theorem stop_placedAt (e : Element) (pos : Nat) : (e.placedAt pos).stop = pos + e.print.length := by
  cases e
  rfl

theorem IsTagName.opens {name : String} (hn : IsTagName name) (t : List Char) :
    ∃ c u, '<' :: (name.toList ++ t) = '<' :: c :: u ∧ isTagStart c = true := by
  have hhead := hn.head
  cases hl : name.toList with
  | nil => simp [hl] at hhead
  | cons c u =>
    rw [hl] at hhead
    exact ⟨c, u ++ t, rfl, by simpa [isTagStart] using .inl hhead⟩

/-- Among children an element is seen by the letter that its name starts with, or as a fragment with
nothing in its tag. -/
theorem Printable.opens {e : Element} (h : Printable e) (hf : e.name = "" → e.spreads = []) :
    ∃ c t, e.print = '<' :: c :: t ∧ isTagStart c = true := by
  cases h with
  | closed hn _ _ => exact hn.opens _
  | @paired name props spreads children start stop hn _ _ _ _ _ _ =>
    rw [Element.print, printTag, List.cons_append, List.append_assoc]
    rcases hn with hn | ⟨rfl, rfl⟩
    · exact hn.opens _
    · have hspreads : spreads = [] := hf rfl
      rw [hspreads]
      exact ⟨'>', _, rfl, by decide⟩

def Node.ReadsBack : Node → Prop
  | .text s => IsCopy s
  | .expression code => IsCode code
  | .element e => Markup.ReadsBack e ∧ ∃ c t, e.print = '<' :: c :: t ∧ isTagStart c = true

/-- A child is read before what follows. Its text is kept until the next child or the closing tag, so
no text may be waiting in front of it. -/
theorem childrenAt?_node {n : Node} (h : n.ReadsBack) {read : List Char}
    (hread : read = [] ∨ n.isText = false) (nodes : List Node) (pos : Nat) {more : List Char}
    {fuel : Nat} (hf : (n.print ++ more).length < fuel) :
    ∃ fuel' read' nodes', more.length < fuel' ∧
      childrenAt? fuel pos read nodes (n.print ++ more) =
        childrenAt? fuel' (pos + n.print.length) read' nodes' more ∧
      withText read' nodes' = n.placedAt pos :: withText read nodes ∧
      (read' = [] ∨ n.isText = true) := by
  rw [List.length_append] at hf
  cases n with
  | text s =>
    have hempty : read = [] := hread.resolve_right (by simp [Node.isText])
    subst hempty
    rw [Node.print] at hf ⊢
    obtain ⟨fuel, rfl⟩ : ∃ n, fuel = n + s.toList.length := ⟨fuel - s.toList.length, by omega⟩
    refine ⟨fuel, s.toList.reverse ++ [], nodes, by omega, childrenAt?_text h.plain .., ?_,
      .inr rfl⟩
    have hnone : withText [] nodes = nodes := rfl
    rw [hnone]
    simp [withText, h.collapsed, h.ne_nil, Node.placedAt]
  | expression code =>
    have htext : (Node.expression code).print ++ more = '\x7b' :: (code.toList ++ '\x7d' :: more) := by
      simp [Node.print]
    have hlen : (Node.expression code).print.length = code.toList.length + 1 + 1 := by
      simp [Node.print]
    obtain ⟨fuel, rfl⟩ : ∃ n, fuel = n + 1 := ⟨fuel - 1, by omega⟩
    refine ⟨fuel, [], .expression code :: withText read nodes, by omega, ?_, rfl, .inl rfl⟩
    rw [htext, childrenAt?_braces h.balanced.sealed, h.balanced.trimmed.trim_eq, h.noRemark,
      if_neg (by simpa using h.ne_nil), hlen, String.ofList_toList]
    rfl
  | element e =>
    obtain ⟨hback, c, t, ht, hstart⟩ := h
    have hlen : (Node.element e).print.length = t.length + 1 + 1 := by
      rw [Node.print, ht, List.length_cons, List.length_cons]
    obtain ⟨fuel, rfl⟩ : ∃ n, fuel = n + 1 := ⟨fuel - 1, by omega⟩
    have hread := hback fuel pos more (by
      rw [List.length_append]
      exact Nat.le_of_lt_succ hf)
    refine ⟨fuel, [], .element (e.placedAt pos) :: withText read nodes, by omega, ?_, rfl, .inl rfl⟩
    rw [Node.print]
    rw [ht, List.cons_append, List.cons_append] at hread ⊢
    rw [childrenAt?_opened hstart hread, stop_placedAt, ← ht]

/-- Children are read one after the other, up to the closing tag. -/
theorem childrenAt?_printNodes {name : String} {children : List Node}
    (hname : ∀ c ∈ name.toList, isNameChar c = true) (hback : ∀ n ∈ children, n.ReadsBack)
    (hapart : textsApart children = true) (fuel pos : Nat) (read : List Char)
    (hread : read = [] ∨ children.head?.any Node.isText = false) (nodes : List Node)
    (rest : List Char)
    (hf : (printNodes children ++ (closingTag name [] ++ rest)).length < fuel) :
    childrenAt? fuel pos read nodes (printNodes children ++ (closingTag name [] ++ rest)) =
      some ((placeNodes children pos).reverse ++ withText read nodes,
        pos + (printNodes children ++ closingTag name []).length, rest) := by
  induction children generalizing fuel pos read nodes with
  | nil =>
    obtain ⟨fuel, rfl⟩ := Nat.exists_eq_succ_of_ne_zero (Nat.ne_zero_of_lt hf)
    have hmem : '>' ∉ name.toList := fun hm => absurd (hname _ hm) (by decide)
    have htext : closingTag name [] ++ rest = '<' :: '/' :: (name.toList ++ '>' :: rest) := by
      simp [closingTag]
    have hlen : (closingTag name []).length = name.toList.length + 2 + 1 := by
      simp [closingTag]
    rw [printNodes, List.nil_append, List.nil_append, htext, childrenAt?_closing hmem, hlen]
    rfl
  | cons n children ih =>
    rw [textsApart, Bool.and_eq_true] at hapart
    have hstop : pos + (printNodes (n :: children) ++ closingTag name []).length =
        pos + n.print.length + (printNodes children ++ closingTag name []).length := by
      rw [printNodes, List.append_assoc, List.length_append, Nat.add_assoc]
    rw [hstop, printNodes, List.append_assoc, placeNodes, List.reverse_cons, List.append_assoc]
    rw [printNodes, List.append_assoc] at hf
    obtain ⟨fuel', read', nodes', hfuel, hstep, hkept, hread'⟩ :=
      childrenAt?_node (hback n List.mem_cons_self) (by simpa using hread) nodes pos hf
    have hnext : read' = [] ∨ children.head?.any Node.isText = false :=
      hread'.imp_right fun htext => by simpa [htext] using hapart.1
    rw [hstep, ih (fun m hm => hback m (List.mem_cons_of_mem n hm)) hapart.2 fuel' _ read' hnext
      nodes' hfuel, hkept]
    rfl

/-! ### Elements -/

/-- A printable element reads back when no fragment in it has a spread. -/
theorem Printable.readsBack {e : Element} (h : Printable e)
    (hf : ∀ c, Inside c e → c.name = "" → c.spreads = []) : ReadsBack e := by
  induction h with
  | @closed name props spreads start stop hn hp hs =>
    intro fuel pos rest hlen
    obtain ⟨fuel, rfl⟩ : ∃ n, fuel = n + 1 := ⟨fuel - 1, by
      rw [Element.print, printTag, List.length_append, List.length_cons] at hlen
      omega⟩
    rw [Element.print, elementAt?, openingTag?_printTag hn.chars hp hs]
    simp [Element.placedAt, placeNodes, Element.print]
  | @paired name props spreads children start stop hn hp hs htexts hcode hchild hapart ih =>
    intro fuel pos rest hlen
    have hchars : ∀ c ∈ name.toList, isNameChar c = true := by
      rcases hn with hn | ⟨rfl, -⟩
      · exact hn.chars
      · simp
    have hback : ∀ n ∈ children, n.ReadsBack := by
      intro n hn
      cases n with
      | text s => exact htexts s hn
      | expression code => exact hcode code hn
      | element e =>
        exact ⟨ih e hn fun c hc => hf c (.deeper hc hn), (hchild e hn).opens (hf e (.child hn))⟩
    have htag : 1 < (printTag name props spreads false).length := by
      simp only [printTag, printTail, List.length_cons, List.length_append, Bool.false_eq_true,
        if_false, List.length_nil]
      omega
    rw [Element.print, List.append_assoc, List.append_assoc] at hlen ⊢
    obtain ⟨fuel, rfl⟩ : ∃ n, fuel = n + 1 := ⟨fuel - 1, by
      rw [List.length_append] at hlen
      omega⟩
    have hnodes := childrenAt?_printNodes hchars hback hapart fuel
      (pos + (printTag name props spreads false).length) [] (.inl rfl) [] rest (by
        rw [List.length_append] at hlen
        omega)
    rw [elementAt?, openingTag?_printTag hchars hp hs]
    simp [hnodes, Element.placedAt, Element.print, withText, collapse, words, wordsFrom,
      Nat.add_assoc]

/-- Reading undoes printing, wherever the printed element stands and whatever is around it. -/
theorem printed_element_reads_back {e : Element} (h : Printable e)
    (hf : ∀ c, Inside c e → c.name = "" → c.spreads = []) (before after : List Char) :
    parseElement? (before ++ (e.print ++ after)) before.length = some (e.placedAt before.length) ∧
      (e.placedAt before.length).stop = before.length + e.print.length := by
  refine ⟨?_, stop_placedAt e _⟩
  have hread := h.readsBack hf ((e.print ++ after).length + 2) before.length after (by omega)
  rw [parseElement?, List.drop_left]
  simp only [hread, Option.map_some]

private theorem isBalanced_plain {code : String} (h : ∀ c ∈ code.toList, isOrdinary c = true)
    (ht : Trimmed code.toList) : IsBalanced code :=
  ⟨sealed_of_ordinary fun c hc => ⟨by simp, h c hc⟩, ht⟩

def lineBreak : Element := ⟨"br:x", [⟨"open", .flag⟩], [], [], true, 0, 0⟩

def copyFragment : Element := ⟨"", [], [], [.element lineBreak, .text "it's"], false, 0, 0⟩

def noteElement : Element :=
  ⟨"Note.Box", [⟨"title", .literal "it's"⟩, ⟨"icon", .expression "'\x7d'"⟩], ["rest"],
    [.text "a > b \x7d", .expression "label", .element copyFragment], false, 0, 0⟩

private theorem printable_noteElement : Printable noteElement := by
  have hbreak : Printable lineBreak := by
    refine .closed ⟨by decide, by decide⟩ ?_ (by simp)
    intro p hp
    rw [List.mem_singleton.1 hp]
    exact ⟨by decide, by decide, trivial⟩
  have hfragment : Printable copyFragment := by
    refine .paired (.inr ⟨rfl, rfl⟩) (by simp) (by simp) ?_ (by simp) (by simpa using hbreak) rfl
    simpa using (⟨by decide, by decide, by decide⟩ : IsCopy "it's")
  have hquote : Sealed [] "'\x7d'".toList :=
    sealed_literal (q := '\x27') (by decide) (.plain (by decide) (by decide) .nil)
  refine .paired (.inl ⟨by decide, by decide⟩) ?_ ?_ ?_ ?_ ?_ rfl
  · intro p hp
    simp only [List.mem_cons, List.not_mem_nil, or_false] at hp
    rcases hp with rfl | rfl
    · exact ⟨by decide, by decide, (by decide : '\x22' ∉ "it's".toList)⟩
    · exact ⟨by decide, by decide, hquote, by decide, by decide⟩
  · simpa using (⟨isBalanced_plain (by decide) ⟨by decide, by decide⟩, by decide⟩ : PrintableSpread "rest")
  · simpa using (⟨by decide, by decide, by decide⟩ : IsCopy "a > b \x7d")
  · simpa using (⟨by decide, isBalanced_plain (by decide) ⟨by decide, by decide⟩, by decide⟩ : IsCode "label")
  · simpa using hfragment

/-- A component with every kind of property and child, behind a `return`. -/
theorem note_reads_back :
    let before := "return ".toList
    parseElement? (before ++ (noteElement.print ++ ";".toList)) before.length =
        some (noteElement.placedAt before.length) ∧
      (noteElement.placedAt before.length).stop = before.length + noteElement.print.length := by
  refine printed_element_reads_back printable_noteElement ?_ "return ".toList ";".toList
  have hnested {e c : Element} (h : Inside c e) : ∃ d, .element d ∈ e.children ∧ (c = d ∨ Inside c d) := by
    cases h with
    | child hc => exact ⟨c, hc, .inl rfl⟩
    | deeper hc hd => exact ⟨_, hd, .inr hc⟩
  intro c hc
  obtain ⟨d, hd, hcd⟩ := hnested hc
  have hd' : d = copyFragment := by simpa [noteElement] using hd
  subst hd'
  rcases hcd with rfl | hcd
  · exact fun _ => rfl
  · obtain ⟨b, hb, hcb⟩ := hnested hcd
    have hb' : b = lineBreak := by simpa [copyFragment] using hb
    subst hb'
    rcases hcb with rfl | hcb
    · exact fun _ => rfl
    · obtain ⟨a, ha, -⟩ := hnested hcb
      simp [lineBreak] at ha

def spreadFragment : Element :=
  ⟨"div", [], [], [.element ⟨"", [], ["x"], [], false, 0, 0⟩], false, 0, 0⟩

/-- Inside another element a fragment with a spread is taken for text. -/
theorem spread_fragment_not_read_back : ¬ ∀ e, Printable e → ∀ before after : List Char,
    parseElement? (before ++ (e.print ++ after)) before.length = some (e.placedAt before.length) := by
  intro h
  have hx : PrintableSpread "x" := ⟨isBalanced_plain (by decide) ⟨by decide, by decide⟩, by decide⟩
  have hfragment : Printable ⟨"", [], ["x"], [], false, 0, 0⟩ :=
    .paired (.inr ⟨rfl, rfl⟩) (by simp) (by simpa using hx) (by simp) (by simp) (by simp) rfl
  have hdiv : Printable spreadFragment :=
    .paired (.inl ⟨by decide, by decide⟩) (by simp) (by simp) (by simp) (by simp)
      (by simpa using hfragment) rfl
  have hstop := congrArg (Option.map Element.stop) (h spreadFragment hdiv [] [])
  exact absurd hstop (by decide)

end JsxToJinja.Markup
