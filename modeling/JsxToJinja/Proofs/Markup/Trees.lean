import JsxToJinja.Proofs.Markup.Elements

/-! Written markup. Reading markup with code between its braces gives back its nodes, and so does reading
a tree of elements whose expressions show an element under a condition. -/
namespace JsxToJinja.Markup
open JsxToJinja.Text JsxToJinja.Code

/-- An opening tag together with a text for it. -/
structure Tag (closed : Bool) where
  opening : OpeningTag
  text : List Char
  isTag : IsTag closed opening text

/-- The name that a condition consists of. -/
structure ConditionName where
  chars : List Char
  isName : isIdentifier chars = true

/-- Parts of a tree: an element, what stands between two texts, and all between two tags. -/
inductive Part where
  | element
  | child
  | inside

/-- Markup with any code between its braces. Texts and children take turns between two tags, so no two
texts run together. -/
inductive Frame : Part → Type where
  | closed (tag : Tag true) : Frame .element
  | paired (tag : Tag false) (inner : Frame .inside) : Frame .element
  | nested (e : Frame .element) : Frame .child
  | braces (code : List Char) : Frame .child
  | last (text : List Char) : Frame .inside
  | next (text : List Char) (child : Frame .child) (rest : Frame .inside) : Frame .inside

/-- A text between tags. Inside an expression it is code as well: its quotes and brackets close, and
outside them no operator occurs. -/
structure InertText (embedded : Bool) (t : List Char) : Prop where
  plain : ∀ c ∈ t, c ≠ '<' ∧ c ≠ '\x7b' ∧ c ≠ '\x7d'
  sealed : embedded = true → Sealed operatorChars t

/-- Code between braces: its brackets close, and it is neither blank nor a comment. -/
structure Braced (code : List Char) : Prop where
  sealed : Sealed [] code
  filled : trim code ≠ []
  noRemark : isRemark (trim code) = false

/-! ### Texts -/

/-- A text without tags and braces is collected for the next node. -/
theorem childrenAt?_text {t : List Char} (h : ∀ c ∈ t, c ≠ '<' ∧ c ≠ '\x7b') (fuel pos : Nat)
    (read : List Char) (acc : List Node) (rest : List Char) :
    childrenAt? (fuel + t.length) pos read acc (t ++ rest) =
      childrenAt? fuel (pos + t.length) (t.reverse ++ read) acc rest := by
  induction t generalizing pos read with
  | nil => rfl
  | cons c t ih =>
    obtain ⟨hc, hb⟩ := h c (by simp)
    have hlen : pos + (c :: t).length = pos + 1 + t.length := by simp; omega
    have hfuel : fuel + (c :: t).length = fuel + t.length + 1 := rfl
    rw [List.cons_append, hfuel, childrenAt?_char hc hb, ih fun d hd => h d (by simp [hd]), hlen]
    simp

theorem withText_append (read : List Char) (acc : List Node) :
    withText read acc = withText read [] ++ acc := by
  simp only [withText]
  split <;> rfl

theorem reverse_withText (read : List Char) : (withText read []).reverse = withText read [] := by
  simp only [withText]
  split <;> rfl

namespace Frame

def print : {k : Part} → Frame k → List Char
  | _, closed tag => tag.text
  | _, paired tag inner => tag.text ++ (inner.print ++ closingTag tag.opening.name [])
  | _, nested e => e.print
  | _, braces code => '\x7b' :: (code ++ ['\x7d'])
  | _, last t => t
  | _, next t child rest => t ++ (child.print ++ rest.print)

def nodes : {k : Part} → Frame k → Nat → List Node
  | _, closed tag, pos =>
    [.element ⟨tag.opening.name, tag.opening.props, tag.opening.spreads, [], true, pos,
      pos + tag.text.length⟩]
  | _, paired tag inner, pos =>
    [.element ⟨tag.opening.name, tag.opening.props, tag.opening.spreads,
      inner.nodes (pos + tag.text.length), false, pos,
      pos + (tag.text ++ (inner.print ++ closingTag tag.opening.name [])).length⟩]
  | _, nested e, pos => e.nodes pos
  | _, braces code, _ => [.expression (String.ofList (trim code))]
  | _, last t, _ => withText t.reverse []
  | _, next t child rest, pos =>
    withText t.reverse [] ++
      (child.nodes (pos + t.length) ++ rest.nodes (pos + t.length + child.print.length))

/-- Every text is inert, given whether the markup stands inside an expression, and all code closes. -/
def Fits : {k : Part} → Frame k → Bool → Prop
  | _, closed _, _ => True
  | _, paired _ inner, embedded => inner.Fits embedded
  | _, nested e, embedded => e.Fits embedded
  | _, braces code, _ => Braced code
  | _, last t, embedded => InertText embedded t
  | _, next t child rest, embedded =>
    InertText embedded t ∧ child.Fits embedded ∧ rest.Fits embedded

/-! ### Markup as code -/

theorem head?_print (f : Frame .element) : f.print.head? = some '<' := by
  cases f with
  | closed tag =>
    obtain ⟨c, s, hs, -⟩ := tag.isTag.opens
    simp [print, hs]
  | paired tag inner =>
    obtain ⟨c, s, hs, -⟩ := tag.isTag.opens
    simp [print, hs]

theorem getLast?_print (f : Frame .element) : f.print.getLast? = some '>' := by
  cases f with
  | closed tag =>
    obtain ⟨opening, text, h⟩ := tag
    cases h with
    | named _ _ _ => simp [print, tagEnd, List.getLast?_cons, List.getLast?_append]
  | paired tag inner => simp [print, closingTag, List.getLast?_append, List.getLast?_cons]

theorem print_ne_nil (f : Frame .element) : f.print ≠ [] := by
  intro h
  have hhead := f.head?_print
  simp [h] at hhead

theorem trimmed_print (f : Frame .element) : Trimmed f.print := by
  refine ⟨fun c hc => ?_, fun c hc => ?_⟩
  · rw [head?_print, Option.mem_some_iff] at hc
    exact hc ▸ by decide
  · rw [getLast?_print, Option.mem_some_iff] at hc
    exact hc ▸ by decide

/-! ### Reading -/

/-- Code between braces becomes a node. -/
theorem childrenAt?_braced {code : List Char} (h : Braced code) (fuel pos : Nat) (read : List Char)
    (acc : List Node) (rest : List Char) :
    childrenAt? (fuel + 1) pos read acc ('\x7b' :: (code ++ ['\x7d']) ++ rest) =
      childrenAt? fuel (pos + ('\x7b' :: (code ++ ['\x7d'])).length) []
        (.expression (String.ofList (trim code)) :: withText read acc) rest := by
  have hlen : pos + ('\x7b' :: (code ++ ['\x7d'])).length = pos + (code.length + 1) + 1 := by
    simp only [List.length_cons, List.length_append, List.length_nil]
    omega
  rw [hlen, List.cons_append, List.append_assoc code, List.singleton_append,
    childrenAt?_braces h.sealed, h.noRemark]
  simp [h.filled]

/-- An element ends where its text ends. -/
theorem stop_of_nodes (f : Frame .element) {pos : Nat} {e : Element}
    (h : f.nodes pos = [.element e]) : e.stop = pos + f.print.length := by
  cases f with
  | closed tag =>
    simp only [nodes, List.cons.injEq, Node.element.injEq, and_true] at h
    rw [← h, print]
  | paired tag inner =>
    simp only [nodes, List.cons.injEq, Node.element.injEq, and_true] at h
    rw [← h, print]

theorem childrenAt?_element (f : Frame .element) {fuel pos : Nat} {e : Element} {rest : List Char}
    (h : elementAt? fuel pos (f.print ++ rest) = some (e, rest)) (read : List Char)
    (acc : List Node) :
    childrenAt? (fuel + 1) pos read acc (f.print ++ rest) =
      childrenAt? fuel e.stop [] (.element e :: withText read acc) rest := by
  cases f with
  | closed tag => exact childrenAt?_child tag.isTag h read acc
  | paired tag inner =>
    simp only [print, List.append_assoc] at h ⊢
    exact childrenAt?_child tag.isTag h read acc

/-- Reading a text from a part of markup on gives back the nodes of that part. -/
def Reads : {k : Part} → Frame k → Prop
  | .element, f => ∀ (fuel pos : Nat) (rest : List Char), (f.print ++ rest).length ≤ fuel →
      ∃ e, f.nodes pos = [.element e] ∧ elementAt? fuel pos (f.print ++ rest) = some (e, rest)
  | .child, f => ∀ (fuel pos : Nat) (read : List Char) (acc : List Node) (rest : List Char),
      (f.print ++ rest).length < fuel → ∃ fuel', rest.length < fuel' ∧
        childrenAt? fuel pos read acc (f.print ++ rest) =
          childrenAt? fuel' (pos + f.print.length) []
            ((f.nodes pos).reverse ++ withText read acc) rest
  | .inside, f => ∀ (tag : Tag false) (fuel pos : Nat) (acc : List Node) (rest : List Char),
      (f.print ++ (closingTag tag.opening.name [] ++ rest)).length < fuel →
        childrenAt? fuel pos [] acc (f.print ++ (closingTag tag.opening.name [] ++ rest)) =
          some ((f.nodes pos).reverse ++ acc,
            pos + (f.print ++ closingTag tag.opening.name []).length, rest)

/-- Written markup reads back as its nodes. -/
theorem Fits.reads {k : Part} {f : Frame k} {embedded : Bool} (h : f.Fits embedded) : f.Reads := by
  induction f generalizing embedded with
  | closed tag =>
    intro fuel pos rest hf
    have hpos : 0 < tag.text.length := by
      obtain ⟨c, s, hs, -⟩ := tag.isTag.opens
      simp [hs]
    have hfuel : fuel ≠ 0 := by
      simp only [print, List.length_append] at hf
      omega
    obtain ⟨fuel, rfl⟩ := Nat.exists_eq_succ_of_ne_zero hfuel
    refine ⟨_, rfl, ?_⟩
    rw [print, elementAt?, openingTag?_of_isTag tag.isTag rest]
    simp [tag.isTag.selfClosing_eq]
  | paired tag inner ih =>
    intro fuel pos rest hf
    obtain ⟨c, s, hs, -⟩ := tag.isTag.opens
    have hfuel : fuel ≠ 0 := by
      simp only [print, hs, List.length_append, List.length_cons] at hf
      omega
    obtain ⟨fuel, rfl⟩ := Nat.exists_eq_succ_of_ne_zero hfuel
    have hlen : (inner.print ++ (closingTag tag.opening.name [] ++ rest)).length < fuel := by
      simp only [print, hs, List.length_append, List.length_cons] at hf ⊢
      omega
    have hinner := ih h tag fuel (pos + tag.text.length) [] rest hlen
    refine ⟨_, rfl, ?_⟩
    rw [print, List.append_assoc, List.append_assoc, elementAt?, openingTag?_of_isTag tag.isTag]
    simp [tag.isTag.selfClosing_eq, hinner, Nat.add_assoc]
  | nested e ih =>
    intro fuel pos read acc rest hf
    obtain ⟨fuel, rfl⟩ := Nat.exists_eq_succ_of_ne_zero (Nat.ne_zero_of_lt hf)
    have hle : (e.print ++ rest).length ≤ fuel := Nat.le_of_lt_succ hf
    obtain ⟨el, hnodes, hread⟩ := ih h fuel pos rest hle
    have hstop := e.stop_of_nodes hnodes
    have hlen : rest.length < fuel := by
      have := List.length_pos_iff.2 e.print_ne_nil
      simp only [List.length_append] at hle
      omega
    refine ⟨fuel, hlen, ?_⟩
    rw [print, nodes, hnodes, ← hstop]
    exact childrenAt?_element e hread read acc
  | braces code =>
    intro fuel pos read acc rest hf
    obtain ⟨fuel, rfl⟩ := Nat.exists_eq_succ_of_ne_zero (Nat.ne_zero_of_lt hf)
    have hlen : rest.length < fuel := by
      simp only [print, List.length_append, List.length_cons] at hf
      omega
    exact ⟨fuel, hlen, childrenAt?_braced h fuel pos read acc rest⟩
  | last t =>
    intro tag fuel pos acc rest hf
    obtain ⟨fuel, rfl⟩ : ∃ n, fuel = n + t.length := ⟨fuel - t.length, by
      simp only [print, List.length_append] at hf
      omega⟩
    have hpos : 0 < fuel := by
      simp only [print, List.length_append] at hf
      omega
    have hplain : ∀ c ∈ t, c ≠ '<' ∧ c ≠ '\x7b' := fun c hc =>
      ⟨(InertText.plain h c hc).1, (InertText.plain h c hc).2.1⟩
    rw [print, nodes, childrenAt?_text hplain, childrenAt?_closingTag tag.isTag blank_nil hpos,
      List.append_nil, withText_append, reverse_withText, List.length_append, Nat.add_assoc]
  | next t child rest ihc ihr =>
    intro tag fuel pos acc after hf
    obtain ⟨ht, hc, hr⟩ := h
    obtain ⟨fuel, rfl⟩ : ∃ n, fuel = n + t.length := ⟨fuel - t.length, by
      simp only [print, List.length_append] at hf
      omega⟩
    have hplain : ∀ c ∈ t, c ≠ '<' ∧ c ≠ '\x7b' := fun c hc =>
      ⟨(ht.plain c hc).1, (ht.plain c hc).2.1⟩
    have hlen : (child.print ++ (rest.print ++ (closingTag tag.opening.name [] ++ after))).length <
        fuel := by
      simp only [print, List.length_append] at hf ⊢
      omega
    obtain ⟨fuel', hf', hchild⟩ := ihc hc fuel (pos + t.length) t.reverse acc _ hlen
    have hrest := ihr hr tag fuel' (pos + t.length + child.print.length)
      ((child.nodes (pos + t.length)).reverse ++ withText t.reverse acc) after hf'
    have hprint : (next t child rest).print ++ (closingTag tag.opening.name [] ++ after) =
        t ++ (child.print ++ (rest.print ++ (closingTag tag.opening.name [] ++ after))) := by
      simp [print]
    rw [hprint, childrenAt?_text hplain, List.append_nil, hchild, hrest, withText_append, nodes]
    simp [reverse_withText, print, Nat.add_assoc]

/-- Written markup is one element that ends where the text ends. -/
theorem Fits.parseElement?_print {f : Frame .element} {embedded : Bool} (h : f.Fits embedded) :
    ∃ e, f.nodes 0 = [.element e] ∧ parseElement? f.print 0 = some e ∧ e.stop = f.print.length := by
  obtain ⟨e, hnodes, hread⟩ := h.reads (f.print.length + 2) 0 [] (by simp)
  have hstop := f.stop_of_nodes hnodes
  rw [List.append_nil] at hread
  refine ⟨e, hnodes, ?_, by simpa using hstop⟩
  simp [parseElement?, hread]

theorem Fits.wholeElement?_print {f : Frame .element} {embedded : Bool} (h : f.Fits embedded) :
    ∃ e, f.nodes 0 = [.element e] ∧ Content.wholeElement? f.print = some e := by
  obtain ⟨e, hnodes, hparse, hstop⟩ := h.parseElement?_print
  exact ⟨e, hnodes, by simp [Content.wholeElement?, hparse, hstop]⟩

end Frame

/-- Texts and children take turns between two tags, so no two texts run together. -/
inductive Tree : Part → Type where
  | closed (tag : Tag true) : Tree .element
  | paired (tag : Tag false) (inner : Tree .inside) : Tree .element
  | nested (e : Tree .element) : Tree .child
  | guarded (condition : ConditionName) (e : Tree .element) : Tree .child
  | choice (condition : ConditionName) (yes no : Tree .element) : Tree .child
  | last (text : List Char) : Tree .inside
  | next (text : List Char) (child : Tree .child) (rest : Tree .inside) : Tree .inside

def guardedCode (c : ConditionName) (e : List Char) : List Char := c.chars ++ (" && ".toList ++ e)

def choiceCode (c : ConditionName) (yes no : List Char) : List Char :=
  (c.chars ++ [' ']) ++ '?' :: ((' ' :: (yes ++ [' '])) ++ ':' :: (' ' :: no))

namespace Tree

def print : {k : Part} → Tree k → List Char
  | _, closed tag => tag.text
  | _, paired tag inner => tag.text ++ (inner.print ++ closingTag tag.opening.name [])
  | _, nested e => e.print
  | _, guarded c e => '\x7b' :: (guardedCode c e.print ++ ['\x7d'])
  | _, choice c yes no => '\x7b' :: (choiceCode c yes.print no.print ++ ['\x7d'])
  | _, last t => t
  | _, next t child rest => t ++ (child.print ++ rest.print)

def nodes : {k : Part} → Tree k → Nat → List Node
  | _, closed tag, pos =>
    [.element ⟨tag.opening.name, tag.opening.props, tag.opening.spreads, [], true, pos,
      pos + tag.text.length⟩]
  | _, paired tag inner, pos =>
    [.element ⟨tag.opening.name, tag.opening.props, tag.opening.spreads,
      inner.nodes (pos + tag.text.length), false, pos,
      pos + (tag.text ++ (inner.print ++ closingTag tag.opening.name [])).length⟩]
  | _, nested e, pos => e.nodes pos
  | _, guarded c e, _ => [.expression (String.ofList (guardedCode c e.print))]
  | _, choice c yes no, _ => [.expression (String.ofList (choiceCode c yes.print no.print))]
  | _, last t, _ => withText t.reverse []
  | _, next t child rest, pos =>
    withText t.reverse [] ++
      (child.nodes (pos + t.length) ++ rest.nodes (pos + t.length + child.print.length))

/-- Every text of a tree is inert, given whether the tree stands inside an expression. -/
def Inert : {k : Part} → Tree k → Bool → Prop
  | _, closed _, _ => True
  | _, paired _ inner, embedded => inner.Inert embedded
  | _, nested e, embedded => e.Inert embedded
  | _, guarded _ e, _ => e.Inert true
  | _, choice _ yes no, _ => yes.Inert true ∧ no.Inert true
  | _, last t, embedded => InertText embedded t
  | _, next t child rest, embedded =>
    InertText embedded t ∧ child.Inert embedded ∧ rest.Inert embedded

/-! ### Written trees as code -/

theorem sealed_condition (c : ConditionName) : Sealed operatorChars c.chars :=
  sealed_of_nameChars (fun _ hc => isIdentifierChar_of_mem c.isName hc) (by decide)

theorem sealed_guardedCode (c : ConditionName) {avoid e : List Char} (ha : avoid ⊆ ['|', '?', ':'])
    (he : Sealed operatorChars e) : Sealed avoid (guardedCode c e) := by
  have hop : avoid ⊆ operatorChars := List.Subset.trans ha (by decide)
  have hsign : Sealed ['|', '?', ':'] " && ".toList := sealed_of_ordinary (by decide)
  exact ((sealed_condition c).mono hop).append ((hsign.mono ha).append (he.mono hop))

theorem sealed_choiceCode (c : ConditionName) {yes no : List Char} (hy : Sealed operatorChars yes)
    (hn : Sealed operatorChars no) : Sealed [] (choiceCode c yes no) := by
  have hop : ([] : List Char) ⊆ operatorChars := by simp
  have hspace : Sealed [] [' '] := sealed_of_ordinary (by decide)
  have hyes : Sealed [] (' ' :: (yes ++ [' '])) :=
    .plain (by simp) (by decide) ((hy.mono hop).append hspace)
  exact (((sealed_condition c).mono hop).append hspace).append (.plain (by simp) (by decide)
    (hyes.append (.plain (by simp) (by decide) (.plain (by simp) (by decide) (hn.mono hop)))))

/-- Outside its braces and quotes a tree inside an expression holds no operator. -/
theorem Inert.sealed {k : Part} {t : Tree k} (h : t.Inert true) : Sealed operatorChars t.print := by
  induction t with
  | closed tag => exact tag.isTag.sealed
  | paired tag inner ih =>
    exact tag.isTag.sealed.append ((ih h).append (tag.isTag.sealed_closingTag blank_nil))
  | nested e ih => exact ih h
  | guarded c e ih => exact .bracket (by decide) (sealed_guardedCode c (by simp) (ih h))
  | choice c yes no ihy ihn =>
    exact .bracket (by decide) (sealed_choiceCode c (ihy h.1) (ihn h.2))
  | last t => exact InertText.sealed h rfl
  | next t child rest ihc ihr => exact (h.1.sealed rfl).append ((ihc h.2.1).append (ihr h.2.2))

def frame : {k : Part} → Tree k → Frame k
  | _, closed tag => .closed tag
  | _, paired tag inner => .paired tag inner.frame
  | _, nested e => .nested e.frame
  | _, guarded c e => .braces (guardedCode c e.print)
  | _, choice c yes no => .braces (choiceCode c yes.print no.print)
  | _, last t => .last t
  | _, next t child rest => .next t child.frame rest.frame

theorem print_frame {k : Part} (t : Tree k) : t.frame.print = t.print := by
  induction t with
  | closed tag => rfl
  | paired tag inner ih => simp only [frame, Frame.print, print, ih]
  | nested e ih => exact ih
  | guarded c e ih => rfl
  | choice c yes no ihy ihn => rfl
  | last t => rfl
  | next t child rest ihc ihr => simp only [frame, Frame.print, print, ihc, ihr]

theorem head?_print (t : Tree .element) : t.print.head? = some '<' :=
  t.print_frame ▸ t.frame.head?_print

theorem print_ne_nil (t : Tree .element) : t.print ≠ [] := t.print_frame ▸ t.frame.print_ne_nil

theorem trimmed_print (t : Tree .element) : Trimmed t.print := t.print_frame ▸ t.frame.trimmed_print

/-! ### Code between braces -/

theorem trimmed_guardedCode (c : ConditionName) (e : Tree .element) :
    Trimmed (guardedCode c e.print) :=
  (trimmed_of_isIdentifier c.isName).between e.trimmed_print (ne_nil_of_isIdentifier c.isName)
    e.print_ne_nil _

theorem trimmed_choiceCode (c : ConditionName) (yes : List Char) (no : Tree .element) :
    Trimmed (choiceCode c yes no.print) := by
  have h := (trimmed_of_isIdentifier c.isName).between no.trimmed_print
    (ne_nil_of_isIdentifier c.isName) no.print_ne_nil
    (' ' :: '?' :: ' ' :: (yes ++ [' ', ':', ' ']))
  simpa [choiceCode] using h

theorem prefix_guardedCode (c : ConditionName) (e : List Char) : c.chars <+: guardedCode c e :=
  List.prefix_append _ _

theorem prefix_choiceCode (c : ConditionName) (yes no : List Char) :
    c.chars <+: choiceCode c yes no :=
  ⟨_, (List.append_assoc _ _ _).symm⟩

/-- Code that begins with a name is no comment. -/
theorem braced_condition {c : ConditionName} {code : List Char} (hc : c.chars <+: code)
    (hs : Sealed [] code) (ht : Trimmed code) : Braced code := by
  obtain ⟨d, name, hd⟩ := List.exists_cons_of_ne_nil (ne_nil_of_isIdentifier c.isName)
  obtain ⟨r, rfl⟩ := hc
  have hchar : isIdentifierChar d = true := isIdentifierChar_of_mem c.isName (by simp [hd])
  have hhead : (c.chars ++ r).head? ≠ some '/' := by
    simpa [hd] using ne_of_isIdentifierChar hchar (by decide)
  refine ⟨hs, ?_, ?_⟩
  · rw [ht.trim_eq]
    simp [hd]
  · rw [ht.trim_eq, isRemark, startsWith_of_head hhead, Bool.false_and]

/-! ### Reading -/

theorem nodes_frame {k : Part} (t : Tree k) (pos : Nat) : t.frame.nodes pos = t.nodes pos := by
  induction t generalizing pos with
  | closed tag => rfl
  | paired tag inner ih => simp only [frame, Frame.nodes, nodes, ih, print_frame]
  | nested e ih => exact ih pos
  | guarded c e ih => simp only [frame, Frame.nodes, nodes, (trimmed_guardedCode c e).trim_eq]
  | choice c yes no ihy ihn =>
    simp only [frame, Frame.nodes, nodes, (trimmed_choiceCode c yes.print no).trim_eq]
  | last t => rfl
  | next t child rest ihc ihr => simp only [frame, Frame.nodes, nodes, ihc, ihr, print_frame]

/-- An inert tree is markup that the parser reads. -/
theorem Inert.fits {k : Part} {t : Tree k} {embedded : Bool} (h : t.Inert embedded) :
    t.frame.Fits embedded := by
  induction t generalizing embedded with
  | closed tag => exact h
  | paired tag inner ih => exact ih h
  | nested e ih => exact ih h
  | guarded c e ih =>
    exact braced_condition (prefix_guardedCode c e.print)
      (sealed_guardedCode c (by simp) (Inert.sealed h)) (trimmed_guardedCode c e)
  | choice c yes no ihy ihn =>
    exact braced_condition (prefix_choiceCode c yes.print no.print)
      (sealed_choiceCode c (Inert.sealed h.1) (Inert.sealed h.2)) (trimmed_choiceCode c yes.print no)
  | last t => exact h
  | next t child rest ihc ihr => exact ⟨h.1, ihc h.2.1, ihr h.2.2⟩

/-- A written tree is one element that ends where the text ends. -/
theorem Inert.parseElement?_print {t : Tree .element} {embedded : Bool} (h : t.Inert embedded) :
    ∃ e, t.nodes 0 = [.element e] ∧ parseElement? t.print 0 = some e ∧ e.stop = t.print.length := by
  simpa only [nodes_frame, print_frame] using h.fits.parseElement?_print

theorem Inert.wholeElement?_print {t : Tree .element} {embedded : Bool} (h : t.Inert embedded) :
    ∃ e, t.nodes 0 = [.element e] ∧ Content.wholeElement? t.print = some e := by
  simpa only [nodes_frame, print_frame] using h.fits.wholeElement?_print

end Tree

end JsxToJinja.Markup
