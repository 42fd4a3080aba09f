import JsxToJinja.Proofs.Jinja.PlainCode

/-! How deep the parts of code are followed does not matter, as long as it is deeper than the code is
long: every part is shorter than the whole. -/
namespace JsxToJinja.Code
open JsxToJinja.Text

/-- Code in braces is shorter than the literal around it. -/
theorem length_lt_of_partsFrom {skip : Nat} {read t : List Char} {parts : List TemplatePart}
    (h : partsFrom skip read t = some parts) {code : String} (hc : .expr code ∈ parts) :
    code.toList.length < t.length := by
  have hflush {read : List Char} {parts : List TemplatePart}
      (h : TemplatePart.expr code ∈ flushText read parts) : TemplatePart.expr code ∈ parts := by
    rw [flushText] at h
    split at h
    · exact h
    · simpa using h
  induction t generalizing skip read parts with
  | nil =>
    cases skip <;>
    · cases h
      cases hflush hc
  | cons c t ih =>
    rw [List.length_cons]
    cases skip with
    | succ skip => exact Nat.lt_succ_of_lt (ih h hc)
    | zero =>
      rw [partsFrom] at h
      split at h
      · obtain ⟨n, -, h⟩ := Option.bind_eq_some_iff.1 h
        obtain ⟨rest, hrest, h⟩ := Option.bind_eq_some_iff.1 h
        cases h
        rcases List.mem_cons.1 (hflush hc) with he | hc
        · cases he
          have htrim := length_trim_le (slice t 1 n)
          have hslice := length_slice_le t 1 n
          rw [String.toList_ofList]
          omega
        · exact Nat.lt_succ_of_lt (ih hrest hc)
      · exact Nat.lt_succ_of_lt (ih h hc)

theorem length_lt_of_templateParts? {t : List Char} {parts : List TemplatePart}
    (h : templateParts? t = some parts) {code : String} (hc : .expr code ∈ parts) :
    code.toList.length < t.length := by
  rw [templateParts?] at h
  split at h
  · exact Nat.lt_of_lt_of_le (length_lt_of_partsFrom h hc)
      ((infix_groupInner _).length_le.trans (length_trim_le t))
  · cases h

end JsxToJinja.Code

namespace JsxToJinja.Jinja
open JsxToJinja.Text JsxToJinja.Code

section
variable {write write' : Writer} {t : List Char}
  (h : ∀ s : List Char, s.length < t.length → write s = write' s)
include h

/-- How a literal is written depends on what the writer makes of shorter texts only. -/
theorem literalText_congr : literalText write t = literalText write' t := by
  have htemplate : templateLiteralWith? write t = templateLiteralWith? write' t := by
    rw [templateLiteralWith?, templateLiteralWith?]
    cases hparts : templateParts? t with
    | none => rfl
    | some parts =>
      have hmap : parts.map (partText write) = parts.map (partText write') := by
        refine List.map_congr_left fun part hpart => ?_
        cases part with
        | text s => rfl
        | expr code => rw [partText, partText, h _ (length_lt_of_templateParts? hparts hpart)]
      rw [Option.map_some, Option.map_some, hmap]
  rw [literalText.eq_def, literalText.eq_def, htemplate]

theorem groupText_congr : groupText write t = groupText write' t := by
  rw [groupText.eq_def, groupText.eq_def]
  split
  · rfl
  · rename_i c u _
    have hinner : (groupInner (c :: u)).length < (c :: u).length := by
      simp only [groupInner, List.length_dropLast, List.length_drop, List.length_cons]
      omega
    rw [h _ hinner]
  · rfl

theorem writeFrom_congr {names : NameMap} {skip : Nat} {out : List Char} :
    writeFrom names write skip out t = writeFrom names write' skip out t := by
  induction t generalizing skip out with
  | nil => cases skip <;> rfl
  | cons c t ih =>
    have ih' {skip : Nat} {out : List Char} :
        writeFrom names write skip out t = writeFrom names write' skip out t :=
      ih fun s hs => h s (Nat.lt_succ_of_lt hs)
    have htake (n : Nat) (s : List Char) (hs : s.length < ((c :: t).take (n + 1)).length) :
        write s = write' s := h s (Nat.lt_of_lt_of_le hs (List.take_prefix _ _).length_le)
    cases skip with
    | succ skip => exact ih'
    | zero =>
      rw [writeFrom, writeFrom]
      simp only [ih', literalText_congr (htake _), groupText_congr (htake _)]

theorem translateStep_congr (names : NameMap) :
    translateStep names write t = translateStep names write' t := by
  have hstrip := (infix_stripOuterParens t).length_le
  rw [translateStep, translateStep]
  cases hsplit : splitTernary? (stripOuterParens t) with
  | none =>
    dsimp only
    rw [writeFrom_congr fun s hs => h s (Nat.lt_of_lt_of_le hs hstrip)]
  | some parts =>
    obtain ⟨condition, yes, no⟩ := parts
    obtain ⟨hcondition, hyes, hno⟩ := length_lt_of_splitTernary? hsplit
    dsimp only
    rw [branchText, branchText, branchText, branchText, h _ (by omega), h _ (by omega), h _ (by omega)]

end

/-- All depths beyond the length of the code give the same. -/
theorem translateWithin_stable (names : NameMap) {t : List Char} {n m : Nat} (hn : t.length < n)
    (hm : t.length < m) : translateWithin names n t = translateWithin names m t := by
  induction n generalizing t m with
  | zero => omega
  | succ n ih =>
    cases m with
    | zero => omega
    | succ m => exact translateStep_congr (fun s hs => ih (by omega) (by omega)) names

theorem translateWithin_eq (names : NameMap) {t : List Char} {n : Nat} (hn : t.length < n) :
    translateWithin names n t = translateText names t := translateWithin_stable names hn (Nat.lt_succ_self _)

end JsxToJinja.Jinja
