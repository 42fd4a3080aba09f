import JsxToJinja.Jinja.Line
import JsxToJinja.Proofs.Text.TagFree

/-! The tags of a template in the order they stand in its text, and how they nest. -/
namespace JsxToJinja.Jinja
open JsxToJinja.Text

/-- A statement tag, as far as it opens or closes a block. -/
inductive Tag where
  | opensIf
  | elif
  | otherwise
  | closesIf
  | opensFor
  | closesFor
  | simple
deriving Repr, DecidableEq

namespace Tag

def ofWord (word : List Char) : Tag :=
  if word = "if".toList then opensIf
  else if word = "elif".toList then elif
  else if word = "else".toList then otherwise
  else if word = "endif".toList then closesIf
  else if word = "for".toList then opensFor
  else if word = "endfor".toList then closesFor
  else simple

/-- The tag whose inside begins a text: its first word tells. -/
def inside (t : List Char) : Tag := ofWord ((t.dropWhile (· == ' ')).takeWhile Char.isAlpha)

end Tag

/-- Tags of a text, wherever a brace is followed by a percent sign. -/
def tags : List Char → List Tag
  | [] => []
  | c :: t => if c == '\x7b' && t.head? == some '%' then .inside (t.drop 1) :: tags t else tags t

/-- An open block; a conditional takes no further arm behind its `else`. -/
inductive OpenBlock where
  | conditional (complete : Bool)
  | loop
deriving Repr, DecidableEq

/-- What one tag does to the open blocks, innermost first. An arm stands directly in a conditional, and
an end closes the innermost block. -/
def Tag.step : List OpenBlock → Tag → Option (List OpenBlock)
  | blocks, opensIf => some (.conditional false :: blocks)
  | .conditional false :: blocks, elif => some (.conditional false :: blocks)
  | .conditional false :: blocks, otherwise => some (.conditional true :: blocks)
  | .conditional _ :: blocks, closesIf => some blocks
  | blocks, opensFor => some (.loop :: blocks)
  | .loop :: blocks, closesFor => some blocks
  | blocks, simple => some blocks
  | _, _ => none

/-- Open blocks behind a row of tags, if all of them fit. -/
def Tag.run : List OpenBlock → List Tag → Option (List OpenBlock)
  | blocks, [] => some blocks
  | blocks, tag :: rest => (step blocks tag).bind (run · rest)

/-- The tags of a text nest: no block stays open, and every arm and every end has its place. -/
def WellNested (t : List Char) : Prop := Tag.run [] (tags t) = some []

instance (t : List Char) : Decidable (WellNested t) :=
  inferInstanceAs (Decidable (_ = _))

/-! ### Rows of tags -/

namespace Tag

theorem run_append (blocks : List OpenBlock) (xs ys : List Tag) :
    run blocks (xs ++ ys) = (run blocks xs).bind (run · ys) := by
  induction xs generalizing blocks with
  | nil => rfl
  | cons x xs ih => simp [run, ih, Option.bind_assoc]

/-- The tags leave the open blocks as they are. -/
def Neutral (ts : List Tag) : Prop := ∀ blocks, run blocks ts = some blocks

namespace Neutral

variable {xs ys : List Tag}

theorem nil : Neutral [] := fun _ => rfl

theorem simple : Neutral [.simple] := by
  rintro (_ | ⟨_ | _, _⟩) <;> rfl

theorem append (hx : Neutral xs) (hy : Neutral ys) : Neutral (xs ++ ys) := fun blocks => by
  rw [run_append, hx, Option.bind_some, hy]

/-- Tags between two others. -/
theorem run_around (hx : Neutral xs) (blocks : List OpenBlock) (ys : List Tag) :
    run blocks (xs ++ ys) = run blocks ys := by
  rw [run_append, hx, Option.bind_some]

theorem loop (hx : Neutral xs) : Neutral (.opensFor :: xs ++ [.closesFor]) := fun blocks => by
  have hopen : step blocks .opensFor = some (.loop :: blocks) := by
    rcases blocks with _ | ⟨_ | _, _⟩ <;> rfl
  rw [List.cons_append, run, hopen, Option.bind_some, hx.run_around]
  rfl

end Neutral

/-- The end of a conditional, and the arms before it: each has a condition or not, and tags in it. -/
def arms : List (Bool × List Tag) → List Tag
  | [] => [.closesIf]
  | (hasCondition, ts) :: rest => (if hasCondition then .elif else .otherwise) :: ts ++ arms rest

/-- Only the last arm may be without a condition. -/
def Complete (arms : List (Bool × List Tag)) : Prop := arms.Pairwise fun arm _ => arm.1 = true

/-- Arms that are neutral leave the blocks around a conditional as they were. -/
theorem run_arms {later : List (Bool × List Tag)} (h : ∀ arm ∈ later, Neutral arm.2)
    (hlast : Complete later) (blocks : List OpenBlock) :
    run (.conditional false :: blocks) (arms later) = some blocks := by
  induction later with
  | nil => rfl
  | cons arm rest ih =>
    obtain ⟨hasCondition, ts⟩ := arm
    obtain ⟨hfirst, hrest⟩ := List.pairwise_cons.1 hlast
    have hts : Neutral ts := h _ List.mem_cons_self
    rw [arms]
    cases hasCondition with
    | true =>
      rw [if_pos rfl, List.cons_append, run, step, Option.bind_some, hts.run_around]
      exact ih (fun arm harm => h arm (List.mem_cons_of_mem _ harm)) hrest
    | false =>
      cases rest with
      | nil =>
        rw [if_neg Bool.false_ne_true, List.cons_append, run, step, Option.bind_some, hts.run_around]
        rfl
      | cons next _ => exact absurd (hfirst next List.mem_cons_self) Bool.false_ne_true

/-- A conditional with the tags of its first arm and its other arms. -/
theorem Neutral.conditional {first : List Tag} (hfirst : Neutral first)
    {later : List (Bool × List Tag)} (h : ∀ arm ∈ later, Neutral arm.2) (hlast : Complete later) :
    Neutral (.opensIf :: first ++ arms later) := fun blocks => by
  have hopen : step blocks .opensIf = some (.conditional false :: blocks) := by
    rcases blocks with _ | ⟨_ | _, _⟩ <;> rfl
  rw [List.cons_append, run, hopen, Option.bind_some, hfirst.run_around]
  exact run_arms h hlast blocks

end Tag

/-! ### Tags of texts -/

/-- Whatever follows, the text adds just these tags. -/
def Writes (ts : List Tag) (t : List Char) : Prop :=
  ∀ rest, Apart t rest → tags (t ++ rest) = ts ++ tags rest

namespace Writes

variable {ts us : List Tag} {a b : List Char}

theorem tags_eq (h : Writes ts a) : tags a = ts := by
  simpa [tags] using h [] fun _ => by simp

/-- Texts write their tags one after the other, when none arises between them. -/
theorem append (ha : Writes ts a) (hb : Writes us b) (hab : Apart a b) : Writes (ts ++ us) (a ++ b) := by
  intro rest hrest
  have hafter : Apart b rest := by
    intro hlast
    refine hrest ?_
    rw [List.getLast?_append, hlast]
    rfl
  have hmeet : Apart a (b ++ rest) := by
    intro hlast
    cases b with
    | nil => exact hrest (by simpa using hlast)
    | cons c b => exact hab hlast
  rw [List.append_assoc, ha _ hmeet, hb _ hafter, List.append_assoc]

theorem of_tagFree {t : List Char} (h : TagFree t) : Writes [] t := by
  intro rest hrest
  rw [List.nil_append]
  induction t with
  | nil => rfl
  | cons c t ih =>
    obtain ⟨htail, hnext⟩ := tagFree_cons.1 h
    have hplain : (c == '\x7b' && (t ++ rest).head? == some '%') = false := by
      rw [Bool.and_eq_false_iff, beq_eq_false_iff_ne, beq_eq_false_iff_ne]
      by_cases hc : c = '\x7b'
      · right
        cases t with
        | nil => exact hrest (by simp [hc])
        | cons d t => exact hnext hc
      · exact .inl hc
    rw [List.cons_append, tags, hplain, if_neg Bool.false_ne_true]
    refine ih htail fun hlast => hrest ?_
    rw [List.getLast?_cons, hlast]
    rfl

end Writes

private theorem tags_opening (t : List Char) :
    tags ('\x7b' :: '%' :: t) = .inside t :: tags ('%' :: t) := rfl

/-- A statement adds one tag. The first word of its code tells which. -/
theorem writes_statement {code : String} {c : Char} {t : List Char} (hcode : code.toList = c :: t)
    (hc : c.isAlpha = true) (hfree : TagFree code.toList) :
    Writes [.ofWord (code.toList.takeWhile Char.isAlpha)] (statement code).toList := by
  intro rest _
  have hword : Tag.inside (' ' :: (code.toList ++ ' ' :: '%' :: '\x7d' :: rest)) =
      .ofWord (code.toList.takeWhile Char.isAlpha) := by
    have hblank : (c == ' ') = false := by
      rw [beq_eq_false_iff_ne]
      rintro rfl
      exact absurd hc (by decide)
    have hstart : (code.toList ++ ' ' :: '%' :: '\x7d' :: rest).dropWhile (· == ' ') =
        code.toList ++ ' ' :: '%' :: '\x7d' :: rest := by
      rw [hcode, List.cons_append, List.dropWhile_cons, if_neg (by simp [hblank])]
    rw [Tag.inside, List.dropWhile_cons, if_pos (beq_self_eq_true _), hstart, List.takeWhile_append]
    have hend : (' ' :: '%' :: '\x7d' :: rest).takeWhile Char.isAlpha = [] := rfl
    split
    · rename_i hall
      rw [hend, List.append_nil, (List.takeWhile_prefix _).eq_of_length hall]
    · rfl
  have hplain : Writes [] ('%' :: ' ' :: (code.toList ++ [' ', '%', '\x7d'])) := by
    refine .of_tagFree ?_
    simp [tagFree_cons, tagFree_append, hfree, tagFree_nil, Apart]
  have hrest := hplain rest (.of_last (by simp [List.getLast?_cons]))
  have hopening : (statement code).toList ++ rest =
      '\x7b' :: '%' :: ' ' :: (code.toList ++ ' ' :: '%' :: '\x7d' :: rest) := by
    simp [statement]
  rw [hopening, tags_opening, hword]
  simpa using hrest

end JsxToJinja.Jinja
