import JsxToJinja.Jinja.Expr
import JsxToJinja.Proofs.Classes.TemplateLiterals
import Mathlib.Data.List.Chain

/-! Template literals as lists of parts. Texts may hold dollar signs and braces, and code may hold
braces and quoted braces: the literal still comes apart into the parts it was put together from. -/
namespace JsxToJinja.Jinja
open JsxToJinja.Text JsxToJinja.Code

/-! ### Parts and their texts -/

def isText : TemplatePart → Bool
  | .text _ => true
  | .expr _ => false

def partCode : TemplatePart → List Char
  | .text s => s.toList
  | .expr e => '$' :: '\x7b' :: (e.toList ++ ['\x7d'])

def literalOf (ps : List TemplatePart) : List Char := '\x60' :: (ps.flatMap partCode ++ ['\x60'])

/-- Text stands for itself, and code ends at the brace that its own opens. -/
inductive Stands : TemplatePart → Prop where
  | text {s : String} : s ≠ "" → IsPlain s.toList → Stands (.text s)
  | expr {e : String} : Trimmed e.toList → Sealed [] e.toList → '\x60' ∉ e.toList → Stands (.expr e)

/-- Two texts side by side would be read as one. -/
structure Separable (ps : List TemplatePart) : Prop where
  stands : ∀ p ∈ ps, Stands p
  apart : ps.IsChain fun p q => ¬(isText p = true ∧ isText q = true)

variable {ps : List TemplatePart}

theorem Separable.tail {p : TemplatePart} (h : Separable (p :: ps)) : Separable ps :=
  ⟨fun q hq => h.stands q (List.mem_cons_of_mem _ hq), h.apart.tail⟩

/-- What follows a text begins with no brace. -/
theorem Separable.head?_ne {s : String} (h : Separable (.text s :: ps)) :
    (ps.flatMap partCode).head? ≠ some '\x7b' := by
  cases ps with
  | nil => simp
  | cons p ps =>
    cases p with
    | text s' => exact absurd ⟨rfl, rfl⟩ (List.isChain_cons_cons.1 h.apart).1
    | expr e => simp [partCode]

/-! ### Reading a literal -/

/-- A backslash at the end of the code takes the brace with it, and never a quote. -/
theorem literalBody_braced {q : Char} {w rest : List Char} (hq : q ∉ w) (hbrace : q ≠ '\x7d')
    (hrest : LiteralBody q rest) : LiteralBody q (w ++ '\x7d' :: rest) := by
  induction w using List.twoStepInduction with
  | nil => exact .plain (by decide) (Ne.symm hbrace) hrest
  | singleton c =>
    by_cases hc : c = '\\'
    · subst hc
      exact .escape hrest
    · have hne : c ≠ q := fun he => hq (by simp [he])
      exact .plain hc hne (.plain (by decide) (Ne.symm hbrace) hrest)
  | cons_cons c d w ih ih' =>
    simp only [List.mem_cons, not_or] at hq
    by_cases hc : c = '\\'
    · subst hc
      exact .escape (ih hq.2.2)
    · exact .plain hc (Ne.symm hq.1) (ih' d (by simp [hq.2]))

theorem literalBody_parts (h : ∀ p ∈ ps, Stands p) : LiteralBody '\x60' (ps.flatMap partCode) := by
  induction ps with
  | nil => exact .nil
  | cons p ps ih =>
    obtain ⟨hp, hps⟩ := List.forall_mem_cons.1 h
    rw [List.flatMap_cons]
    cases hp with
    | text _ hplain => exact (literalBody_of_plain hplain.no_escape hplain.no_tick).append (ih hps)
    | @expr e _ _ htick =>
      have hcode := literalBody_braced htick (by decide) (ih hps)
      simpa [partCode] using
        LiteralBody.plain (by decide) (by decide) (.plain (c := '\x7b') (by decide) (by decide) hcode)

/-- By induction on the parts: text that is read and not yet a part stands in front of code or of the
end. -/
theorem partsFrom_parts (h : Separable ps) {read : List Char}
    (hread : read = [] ∨ ∀ p ∈ ps.head?, isText p = false) :
    partsFrom 0 read (ps.flatMap partCode) = some (flushText read ps) := by
  induction ps generalizing read with
  | nil => rfl
  | cons p ps ih =>
    rw [List.flatMap_cons]
    cases h.stands p (List.mem_cons_self) with
    | @text s hne hplain =>
      obtain rfl : read = [] := hread.resolve_right fun hno => by simp [isText] at hno
      have hnext : ∀ q ∈ ps.head?, isText q = false := fun q hq => by
        have := (List.isChain_cons.1 h.apart).1 q hq
        simpa [isText] using this
      have hs : s.toList ≠ [] := by simpa using hne
      rw [partCode, partsFrom_plain hplain h.head?_ne, List.append_nil, ih h.tail (.inr hnext)]
      simp [flushText, hs]
    | @expr e htrim hsealed _ =>
      have htext : partCode (.expr e) ++ ps.flatMap partCode =
          '$' :: '\x7b' :: (e.toList ++ '\x7d' :: ps.flatMap partCode) := by simp [partCode]
      rw [htext, partsFrom_code hsealed, ih h.tail (.inl rfl), Option.map_some, htrim.trim_eq,
        String.ofList_toList]
      rfl

theorem templateParts?_literalOf (h : Separable ps) : templateParts? (literalOf ps) = some ps := by
  have htrim : Trimmed (literalOf ps) := trimmed_literal rfl _
  have hquote : singleLiteral? (literalOf ps) = some '\x60' :=
    singleLiteral?_literal rfl (literalBody_parts h.stands)
  have hinner : groupInner (literalOf ps) = ps.flatMap partCode := groupInner_bracket _ _ _
  rw [templateParts?, htrim.trim_eq]
  simp only [hquote, hinner, BEq.rfl, if_true]
  exact partsFrom_parts h (.inl rfl)

/-! ### Concatenation -/

/-- A part as an operand: text is quoted, and code is in parentheses if its translation has a space. -/
def partOperand (names : NameMap) : TemplatePart → String
  | .text s => quote s
  | .expr e => if ' ' ∈ (translate names e).toList then "(" ++ translate names e ++ ")"
    else translate names e

theorem partText_eq (names : NameMap) (p : TemplatePart) :
    partText (translateText names) p = (partOperand names p).toList := by
  cases p with
  | text s => rw [partText, partOperand, quote, String.toList_ofList]
  | expr e =>
    have hcode : (translate names e).toList = translateText names e.toList := by
      rw [translate, String.toList_ofList]
    simp only [partText, partOperand, hcode, List.contains_iff_mem]
    split
    · simp [inParens, hcode]
    · exact hcode.symm

/-- A literal comes apart into the parts it is made of, and two parts or more are concatenated. -/
theorem literal_of_parts_comes_apart (names : NameMap) (h : Separable ps) :
    templateParts? (literalOf ps) = some ps ∧
      (2 ≤ ps.length → templateLiteral? names (String.ofList (literalOf ps)) =
        some ("(" ++ " ~ ".intercalate (ps.map (partOperand names)) ++ ")")) := by
  have hparts := templateParts?_literalOf h
  refine ⟨hparts, fun hlen => ?_⟩
  have hpieces : ps.map (partText (translateText names)) =
      (ps.map (partOperand names)).map String.toList := by
    rw [List.map_map]
    exact List.map_congr_left fun p _ => partText_eq names p
  obtain ⟨p, ps, rfl⟩ := List.exists_cons_of_length_pos (Nat.lt_of_lt_of_le Nat.two_pos hlen)
  obtain ⟨q, rest, rfl⟩ := List.exists_cons_of_length_pos (Nat.le_of_succ_le_succ hlen)
  have hliteral : (String.ofList (literalOf (p :: q :: rest))).toList = literalOf (p :: q :: rest) :=
    String.toList_ofList
  rw [templateLiteral?, templateLiteralWith?, hliteral, hparts, Option.map_some, hpieces,
    Option.map_some]
  refine congrArg some (String.toList_inj.1 ?_)
  simp [inParens, String.toList_intercalate]

def shelfParts : List TemplatePart :=
  [.text "h$", .expr "pick('\x7d')", .text "\x7b-", .expr "props.level + 1"]

theorem separable_shelfParts : Separable shelfParts := by
  have hbrace : LiteralBody '\x27' ['\x7d'] := literalBody_of_plain (by decide) (by decide)
  have hquoted : Sealed [] ('(' :: (['\x27', '\x7d', '\x27'] ++ [')'])) :=
    .bracket rfl (sealed_literal rfl hbrace)
  have hcall : Sealed [] (['p', 'i', 'c', 'k'] ++ '(' :: (['\x27', '\x7d', '\x27'] ++ [')'])) :=
    (sealed_of_ordinary (by decide)).append hquoted
  refine ⟨?_, by decide⟩
  simp only [shelfParts, List.forall_mem_cons]
  exact ⟨.text (by decide) ⟨by decide, by decide, by decide⟩,
    .expr ⟨by decide, by decide⟩ hcall (by decide),
    .text (by decide) ⟨by decide, by decide, by decide⟩,
    .expr ⟨by decide, by decide⟩ (sealed_of_ordinary (by decide)) (by decide), by simp⟩

theorem shelf_literal_comes_apart :
    templateParts? "\x60h$$\x7bpick('\x7d')\x7d\x7b-$\x7bprops.level + 1\x7d\x60".toList =
        some shelfParts ∧
      templateLiteral? (.ofNames ["class"])
          "\x60h$$\x7bpick('\x7d')\x7d\x7b-$\x7bprops.level + 1\x7d\x60" =
        some "('h$' ~ pick('\x7d') ~ '\x7b-' ~ (level + 1))" := by
  have htext : String.ofList (literalOf shelfParts) =
      "\x60h$$\x7bpick('\x7d')\x7d\x7b-$\x7bprops.level + 1\x7d\x60" := by decide
  have hpieces : shelfParts.map (partOperand (.ofNames ["class"])) =
      ["'h$'", "pick('\x7d')", "'\x7b-'", "(level + 1)"] := by decide +kernel
  obtain ⟨hparts, hliteral⟩ :=
    literal_of_parts_comes_apart (.ofNames ["class"]) separable_shelfParts
  rw [← htext, String.toList_ofList]
  refine ⟨hparts, (hliteral (by decide)).trans ?_⟩
  rw [hpieces]
  rfl

end JsxToJinja.Jinja
