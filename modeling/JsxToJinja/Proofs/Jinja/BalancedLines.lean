import JsxToJinja.Proofs.Jinja.TagSequence

/-! Texts and lines that leave the open blocks as they find them. -/
namespace JsxToJinja.Jinja
open JsxToJinja.Text

/-! ### Statements that open, part and close blocks -/

section Statements

variable {code : String}

/-- A statement of a keyword and code behind a blank. -/
theorem writes_keyword {text : String} (keyword : String)
    (htext : text.toList = keyword.toList ++ ' ' :: code.toList) (hfree : TagFree code.toList)
    (hne : keyword.toList ≠ []) (hletters : ∀ c ∈ keyword.toList, c.isAlpha = true) :
    Writes [.ofWord keyword.toList] (statement text).toList := by
  obtain ⟨c, t, hkeyword⟩ := List.exists_cons_of_ne_nil hne
  have hplain : '\x7b' ∉ keyword.toList := fun h => absurd (hletters _ h) (by decide)
  have hfirst : text.toList = c :: (t ++ ' ' :: code.toList) := by rw [htext, hkeyword]; rfl
  have hword : text.toList.takeWhile Char.isAlpha = keyword.toList := by
    rw [htext, List.takeWhile_append_of_pos hletters]
    exact List.append_nil _
  have htag : TagFree text.toList := by
    rw [htext, tagFree_append, tagFree_cons]
    exact ⟨.of_notMem hplain, ⟨hfree, fun h => absurd h (by decide)⟩, .of_head (by simp)⟩
  rw [← hword]
  exact writes_statement hfirst (hletters c (by simp [hkeyword])) htag

theorem writes_if (h : TagFree code.toList) :
    Writes [.opensIf] (statement ("if " ++ code)).toList := 
  writes_keyword "if" (by simp) h (by decide) (by decide)

theorem writes_elif (h : TagFree code.toList) :
    Writes [.elif] (statement ("elif " ++ code)).toList := 
  writes_keyword "elif" (by simp) h (by decide) (by decide)

theorem writes_for (h : TagFree code.toList) :
    Writes [.opensFor] (statement ("for " ++ code)).toList := 
  writes_keyword "for" (by simp) h (by decide) (by decide)

theorem writes_set (h : TagFree code.toList) :
    Writes [.simple] (statement ("set " ++ code)).toList := 
  writes_keyword "set" (by simp) h (by decide) (by decide)

theorem writes_else : Writes [.otherwise] (statement "else").toList :=
  writes_statement rfl (by decide) (by decide)

theorem writes_endif : Writes [.closesIf] (statement "endif").toList :=
  writes_statement rfl (by decide) (by decide)

theorem writes_endfor : Writes [.closesFor] (statement "endfor").toList :=
  writes_statement rfl (by decide) (by decide)

end Statements

/-! ### Texts -/

/-- Whatever follows, the tags of the text leave the open blocks as they are. -/
def Balanced (t : List Char) : Prop := ∃ ts, Writes ts t ∧ Tag.Neutral ts

/-- A balanced text that may follow any other. -/
structure Piece (t : List Char) : Prop where
  balanced : Balanced t
  head : t.head? ≠ some '%'

namespace Balanced

variable {a b t : List Char} {condition : String}

theorem of_tagFree (h : TagFree t) : Balanced t := ⟨[], .of_tagFree h, .nil⟩

theorem neutral (h : Balanced t) : Tag.Neutral (tags t) := by
  obtain ⟨ts, hwrites, hts⟩ := h
  rwa [hwrites.tags_eq]

theorem append (ha : Balanced a) (hb : Balanced b) (hab : Apart a b) : Balanced (a ++ b) := by
  obtain ⟨ts, hts, hneutral⟩ := ha
  obtain ⟨us, hus, hneutral'⟩ := hb
  exact ⟨ts ++ us, hts.append hus hab, hneutral.append hneutral'⟩

theorem append_piece (ha : Balanced a) (hb : Piece b) : Balanced (a ++ b) :=
  ha.append hb.balanced (.of_head hb.head)

theorem cons {c : Char} (ht : Balanced t) (hc : c ≠ '\x7b') : Balanced (c :: t) :=
  (of_tagFree (tagFree_cons.2 ⟨tagFree_nil, fun h => absurd h hc⟩)).append (a := [c]) ht
    (.of_last (by simpa using hc))

theorem nil : Balanced [] := of_tagFree tagFree_nil

/-- Two texts with a character between them that takes no part in a tag. -/
theorem append_cons {c : Char} (ha : Balanced a) (hb : Balanced b)
    (hc : c ≠ '\x7b' ∧ c ≠ '%') : Balanced (a ++ c :: b) :=
  ha.append (hb.cons hc.1) (.of_head (by simpa using hc.2))

/-- Texts with blanks between them are balanced when each of them is. -/
theorem intercalate {texts : List String} (h : ∀ s ∈ texts, Balanced s.toList) :
    Balanced (" ".intercalate texts).toList := by
  induction texts with
  | nil => simpa using nil
  | cons s rest ih =>
    obtain ⟨hs, hrest⟩ := List.forall_mem_cons.1 h
    cases rest with
    | nil => simpa using hs
    | cons u us =>
      have htext : (" ".intercalate (s :: u :: us)).toList =
          s.toList ++ ' ' :: (" ".intercalate (u :: us)).toList := by
        simp
      rw [htext]
      exact hs.append_cons (ih hrest) (by decide)

/-- Blanks at the front are part of no tag. -/
theorem trimStart (h : Balanced t) : Balanced (trimStart t) := by
  obtain ⟨ts, hwrites, hts⟩ := h
  have hsplit : t.takeWhile isBlank ++ Text.trimStart t = t := List.takeWhile_append_dropWhile
  have hblank : '\x7b' ∉ t.takeWhile isBlank := fun hb =>
    absurd (List.all_eq_true.1 List.all_takeWhile _ hb) (by decide)
  have hfree : Writes [] (t.takeWhile isBlank) := .of_tagFree (.of_notMem hblank)
  have hlast : (t.takeWhile isBlank).getLast? ≠ some '\x7b' := fun h =>
    hblank (List.mem_of_getLast? h)
  refine ⟨ts, fun rest hrest => ?_, hts⟩
  have hmeet : Apart t rest := fun hend => hrest (by
    rw [← hsplit, List.getLast?_append] at hend
    cases htail : (Text.trimStart t).getLast? with
    | none =>
      rw [htail] at hend
      exact absurd hend hlast
    | some c => rwa [htail] at hend)
  rw [← hwrites rest hmeet, ← hsplit, List.append_assoc, hfree _ (.of_last hlast), hsplit]
  rfl

theorem of_set {code : String} (h : TagFree code.toList) :
    Balanced (statement ("set " ++ code)).toList := ⟨_, writes_set h, .simple⟩

end Balanced

theorem statement_head (code : String) : (statement code).toList.head? = some '\x7b' := by
  simp [statement]

theorem statement_last (code : String) : (statement code).toList.getLast? = some '\x7d' := by
  simp [statement, List.getLast?_cons]

namespace Piece

variable {a b t : List Char}

theorem nil : Piece [] := ⟨.of_tagFree tagFree_nil, by simp⟩

theorem append (ha : Piece a) (hb : Piece b) : Piece (a ++ b) := by
  refine ⟨ha.balanced.append_piece hb, ?_⟩
  cases a with
  | nil => exact hb.head
  | cons c a => exact ha.head

/-- A text behind a character that takes no part in a tag. -/
theorem cons {c : Char} (ht : Balanced t) (hc : c ≠ '\x7b' ∧ c ≠ '%') : Piece (c :: t) :=
  ⟨ht.cons hc.1, by simpa using hc.2⟩

theorem of_tagFree (h : TagFree t) (hhead : t.head? ≠ some '%') : Piece t := ⟨.of_tagFree h, hhead⟩

theorem join {texts : List String} (h : ∀ s ∈ texts, Piece s.toList) :
    Piece (String.join texts).toList := by
  induction texts with
  | nil => exact nil
  | cons s rest ih =>
    rw [String.join_cons, String.toList_append]
    exact (h s (by simp)).append (ih fun r hr => h r (by simp [hr]))

theorem output {code : String} (h : TagFree code.toList) : Piece (output code).toList := by
  refine of_tagFree ?_ ?_ <;> simp [Jinja.output, tagFree_cons, tagFree_append, tagFree_nil, h, Apart]

/-- A condition around a balanced text. -/
theorem guarded {condition text : String} (hc : TagFree condition.toList) (ht : Balanced text.toList) :
    Piece (guarded condition text).toList := by
  obtain ⟨ts, hts, hneutral⟩ := ht
  have hopen : Apart (statement ("if " ++ condition)).toList text.toList :=
    .of_last (by simp [statement_last])
  have hclose : Apart ((statement ("if " ++ condition)).toList ++ text.toList)
      (statement "endif").toList := .of_head (by simp [statement_head])
  have hwrites := ((writes_if hc).append hts hopen).append writes_endif hclose
  rw [Jinja.guarded, String.toList_append, String.toList_append]
  refine ⟨⟨_, hwrites, ?_⟩, ?_⟩
  · exact hneutral.conditional (List.forall_mem_nil _) .nil
  · simp [List.head?_append, statement_head]

end Piece

/-! ### Lines -/

private theorem inside_append_newline (t rest : List Char) :
    Tag.inside (t ++ '\n' :: rest) = Tag.inside t := by
  have hblank : ('\n' :: rest).dropWhile (· == ' ') = '\n' :: rest := rfl
  have hword (u : List Char) : (u ++ '\n' :: rest).takeWhile Char.isAlpha = u.takeWhile Char.isAlpha := by
    induction u with
    | nil => rfl
    | cons c u ih => simp only [List.cons_append, List.takeWhile_cons, ih]
  have hstart (u : List Char) : (u ++ '\n' :: rest).dropWhile (· == ' ') =
      u.dropWhile (· == ' ') ++ '\n' :: rest := by
    induction u with
    | nil => exact hblank
    | cons c u ih =>
      simp only [List.cons_append, List.dropWhile_cons, ih]
      split <;> rfl
  rw [Tag.inside, hstart, hword, Tag.inside]

/-- No tag reaches over the end of a line. -/
theorem tags_append_newline (t rest : List Char) :
    tags (t ++ '\n' :: rest) = tags t ++ tags rest := by
  induction t with
  | nil => rfl
  | cons c t ih =>
    have hhead : ((t ++ '\n' :: rest).head? == some '%') = (t.head? == some '%') := by
      cases t <;> rfl
    rw [List.cons_append, tags, tags, hhead, ih]
    split
    · rename_i hopens
      cases t with
      | nil => simp at hopens
      | cons d t =>
        rw [List.cons_append, List.drop_one, List.drop_one, List.tail_cons, List.tail_cons,
          inside_append_newline, List.cons_append]
    · rfl

namespace Line

def tags (ls : List Line) : List Tag := ls.flatMap fun l => Jinja.tags l.text.toList

theorem tags_append (ls more : List Line) : tags (ls ++ more) = tags ls ++ tags more :=
  List.flatMap_append

theorem tags_cons (l : Line) (ls : List Line) : tags (l :: ls) = Jinja.tags l.text.toList ++ tags ls :=
  List.flatMap_cons

theorem tags_nil : tags [] = [] := rfl

theorem tags_top {text : String} {ts : List Tag} (h : Writes ts text.toList) (ls : List Line) :
    tags (.top text :: ls) = ts ++ tags ls := by
  rw [tags_cons, top, h.tags_eq]

theorem tags_deeper (ls : List Line) : tags (deeper ls) = tags ls := by
  have htext (l : Line) : (if l.text.isEmpty then l else { l with depth := l.depth + 1 }).text = l.text := by
    split <;> rfl
  simp only [tags, deeper, List.flatMap_map, htext]

/-- What stands before a line adds no tag to it. -/
theorem tags_renderAll {indent : String} (hfree : TagFree indent.toList)
    (hlast : indent.toList.getLast? ≠ some '\x7b') (ls : List Line) :
    Jinja.tags (renderAll indent ls).toList = tags ls := by
  have hmargin (n : Nat) (rest : List Char) :
      Jinja.tags ((String.join (List.replicate n indent)).toList ++ rest) = Jinja.tags rest := by
    induction n with
    | zero => rfl
    | succ n ih =>
      rw [List.replicate_succ, String.join_cons, String.toList_append, List.append_assoc,
        Writes.of_tagFree hfree _ (.of_last hlast), List.nil_append, ih]
  induction ls with
  | nil => rfl
  | cons l ls ih =>
    have hline : (renderAll indent (l :: ls)).toList =
        (String.join (List.replicate l.depth indent)).toList ++
          (l.text.toList ++ '\n' :: (renderAll indent ls).toList) := by
      simp [renderAll, render]
    rw [hline, hmargin, tags_append_newline, ih, tags_cons]

/-- The blocks that lines open, they close. -/
def Nested (ls : List Line) : Prop := Tag.Neutral (tags ls)

namespace Nested

variable {ls more : List Line}

theorem nil : Nested [] := Tag.Neutral.nil

theorem append (h : Nested ls) (hmore : Nested more) : Nested (ls ++ more) := by
  rw [Nested, tags_append]
  exact Tag.Neutral.append h hmore

theorem deeper (h : Nested ls) : Nested (deeper ls) := by rwa [Nested, tags_deeper]

theorem cons {text : String} {depth : Nat} (ht : Balanced text.toList) (h : Nested ls) :
    Nested (⟨depth, text⟩ :: ls) := by
  rw [Nested, tags_cons]
  exact ht.neutral.append h

theorem top {text : String} (ht : Balanced text.toList) : Nested [.top text] := cons ht nil

theorem of_map {texts : List (List Char)} {f : List Char → String}
    (h : ∀ t ∈ texts, Balanced (f t).toList) : Nested (texts.map fun t => .top (f t)) := by
  induction texts with
  | nil => exact nil
  | cons t rest ih =>
    obtain ⟨ht, hrest⟩ := List.forall_mem_cons.1 h
    exact cons ht (ih hrest)

theorem ofText {text : String} (h : TagFree text.toList) : Nested (ofText text) := by
  refine of_map fun l hl => ?_
  split
  · exact .nil
  · rw [String.toList_ofList]
    exact .of_tagFree (h.of_isInfix (infix_of_mem_lines hl))

end Nested

end Line

end JsxToJinja.Jinja
