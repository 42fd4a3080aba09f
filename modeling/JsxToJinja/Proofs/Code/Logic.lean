import JsxToJinja.Proofs.Code.Expression

/-! Logical expressions over member paths, single-quoted texts and whole numbers, and their texts with
no more parentheses than precedence asks for. The levels are 1 for `||`, 2 for `&&`, 3 for equality,
4 for the order, 5 for `!` and 6 for operands. -/
namespace JsxToJinja.Code
open JsxToJinja.Text

/-- Names joined by `.` or, where the flag is set, by `?.`. -/
structure MemberPath where
  head : List Char
  links : List (Bool × List Char)
  head_name : isIdentifier head = true
  links_names : ∀ l ∈ links, isIdentifier l.2 = true

namespace MemberPath

def linkText (l : Bool × List Char) : List Char := (if l.1 then "?." else ".").toList ++ l.2

def text (p : MemberPath) : List Char := p.head ++ p.links.flatMap linkText

end MemberPath

inductive BinaryOp where
  | or
  | and
  | eq
  | ne
  | lt
  | gt
  | le
  | ge
deriving DecidableEq

namespace BinaryOp

def level : BinaryOp → Nat
  | or => 1
  | and => 2
  | eq | ne => 3
  | lt | gt | le | ge => 4

def code : BinaryOp → List Char
  | or => "||".toList
  | and => "&&".toList
  | eq => "===".toList
  | ne => "!==".toList
  | lt => "<".toList
  | gt => ">".toList
  | le => "<=".toList
  | ge => ">=".toList

def isComparison (op : BinaryOp) : Bool := 3 ≤ op.level

end BinaryOp

inductive Logic where
  | path (p : MemberPath)
  /-- A text in single quotes, as it stands between them. -/
  | text (body : List Char) (closed : LiteralBody '\x27' body)
  | int (n : Int)
  | not (a : Logic)
  | binary (op : BinaryOp) (a b : Logic)

namespace Logic

def level : Logic → Nat
  | path _ | text _ _ | int _ => 6
  | not _ => 5
  | binary op _ _ => op.level

/-- Text of an expression where operators of a level and above it may stand. Operators of one level
group to the left, blanks may stand around every operator, and an expression of a lower level, and
only such a one, is in parentheses. -/
inductive Prints : Nat → Logic → List Char → Prop where
  | path {k : Nat} (p : MemberPath) : Prints k (.path p) p.text
  | text {k : Nat} {body : List Char} (h : LiteralBody '\x27' body) :
      Prints k (.text body h) ('\x27' :: (body ++ ['\x27']))
  | int {k : Nat} (n : Int) : Prints k (.int n) (Number.spelled n)
  | not {k : Nat} {a : Logic} {t p : List Char} : k ≤ 5 → Prints 5 a t → Blank p →
      Prints k (.not a) ('!' :: (p ++ t))
  | binary {k : Nat} {op : BinaryOp} {a b : Logic} {s t p q : List Char} : k ≤ op.level →
      Prints op.level a s → Prints (op.level + 1) b t → Blank p → Blank q →
      Prints k (.binary op a b) (s ++ (p ++ (op.code ++ (q ++ t))))
  | paren {k : Nat} {e : Logic} {t p q : List Char} : e.level < k → Prints 1 e t → Blank p →
      Blank q → Prints k e ('(' :: (p ++ (t ++ (q ++ [')']))))

end Logic

/-! ### The ends and the nesting of a text -/

theorem MemberPath.isPath (p : MemberPath) : IsPath p.text := by
  obtain ⟨w, links, hw, hlinks⟩ := p
  induction links generalizing w with
  | nil => simpa [text] using IsPath.name hw
  | cons l links ih =>
    have hl : isIdentifier l.2 = true := hlinks l (by simp)
    have hrest : IsPath (l.2 ++ links.flatMap linkText) :=
      ih l.2 hl fun m hm => hlinks m (by simp [hm])
    obtain ⟨optional, v⟩ := l
    cases optional with
    | false => simpa [text, linkText] using IsPath.dot hw hrest
    | true => simpa [text, linkText] using IsPath.link hw hrest

theorem BinaryOp.code_ne_nil (op : BinaryOp) : op.code ≠ [] := by
  cases op <;> decide

theorem BinaryOp.sealed_code (op : BinaryOp) : Sealed ['?', ':'] op.code := by
  have hall : ∀ c ∈ op.code, c ∉ ['?', ':'] ∧ isOrdinary c = true := by cases op <;> decide
  exact sealed_of_ordinary hall

namespace Logic

variable {k : Nat} {e : Logic} {t : List Char}

theorem nameChar_of_mem_spelled {n : Int} {c : Char} (h : c ∈ Number.spelled n) :
    isIdentifierChar c = true ∨ c = '-' :=
  (Number.mem_spelled h).imp_left fun hd => by simp [isIdentifierChar, Char.isAlphanum, hd]

theorem one_le_level (e : Logic) : 1 ≤ e.level := by
  cases e with
  | binary op => cases op <;> simp [level, BinaryOp.level]
  | _ => simp [level]

theorem Prints.edged (h : Prints k e t) : Edged t := by
  induction h with
  | path p => exact p.isPath.edged
  | text _ => exact edged_cons_concat (by decide) (by decide) _
  | int n =>
    refine edged_of_all (Number.spelled_ne_nil n) fun c hc => ?_
    rcases nameChar_of_mem_spelled hc with hd | rfl
    · simp [isEdge, hd]
    · decide
  | not _ _ _ ih =>
    obtain ⟨c, hc, hec⟩ := ih.last
    exact ⟨⟨'!', rfl, by decide⟩,
      ⟨c, by simp [List.getLast?_cons, List.getLast?_append, Option.mem_def.1 hc], hec⟩⟩
  | binary _ _ _ _ _ iha ihb => simpa using iha.between ihb (_ ++ (_ ++ _))
  | paren =>
    rw [paren_text]
    exact edged_cons_concat (by decide) (by decide) _

/-- Texts are properly nested and hold no part of a conditional. -/
theorem Prints.sealed (h : Prints k e t) : Sealed ['?', ':'] t := by
  have hsign : ∀ c ∈ ['?', ':'], isSign c = true := by decide
  have hpad {p : List Char} (hp : Blank p) : Sealed ['?', ':'] p := sealed_pad hsign hp
  induction h with
  | path p => exact p.isPath.sealed hsign
  | text hb => exact sealed_literal (by decide) hb
  | int n =>
    refine sealed_of_ordinary fun c hc => ?_
    rcases nameChar_of_mem_spelled hc with hd | rfl
    · refine ⟨fun hm => ?_, isOrdinary_of_isIdentifierChar hd⟩
      simpa [isSign, hd] using hsign c hm
    · decide
  | not _ _ hp ih => exact .plain (by decide) (by decide) ((hpad hp).append ih)
  | @binary k op _ _ _ _ _ _ _ _ _ hp hq iha ihb =>
    exact iha.append ((hpad hp).append (op.sealed_code.append ((hpad hq).append ihb)))
  | paren _ _ hp hq ih => exact (ih.mono (by simp)).paren hp hq

theorem Prints.front (h : Prints k e t) : Front t := by
  induction h with
  | path p => exact p.isPath.front
  | text hb => exact .literal [] (by decide) hb
  | int n =>
    cases hs : Number.spelled n with
    | nil => exact absurd hs (Number.spelled_ne_nil n)
    | cons c t =>
      have hc : isIdentifierChar c = true ∨ c = '-' := nameChar_of_mem_spelled (by rw [hs]; simp)
      exact .char t (hc.imp_right .inl)
  | not _ _ _ _ => exact .char _ (.inr (.inr rfl))
  | binary _ _ _ _ _ iha _ => exact iha.append _
  | @paren k e t p q _ ht hp hq _ =>
    have hpad {p : List Char} (hp : Blank p) : Sealed [] p := sealed_of_blank hp (by simp)
    have hin : Sealed [] (p ++ (t ++ q)) :=
      (hpad hp).append ((ht.sealed.mono (by simp)).append (hpad hq))
    simpa using Front.group [] hin

/-- A text that may stand anywhere is not in parentheses as a whole. -/
theorem Prints.not_group (h : Prints 1 e t) : isGroup '(' t = false := by
  cases h with
  | path p => exact isGroup_of_head (p.isPath.head?_ne (by decide))
  | text _ => exact isGroup_of_head (by simp)
  | int n =>
    refine isGroup_of_head fun hc => ?_
    exact absurd (nameChar_of_mem_spelled (List.mem_of_mem_head? hc)) (by decide)
  | not _ _ _ => exact isGroup_of_head (by simp)
  | binary _ ha _ _ _ => exact ha.front.isGroup_append (by simp [BinaryOp.code_ne_nil])
  | paren hl _ _ _ =>
    have := one_le_level e
    omega

end Logic

end JsxToJinja.Code
