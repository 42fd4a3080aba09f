import JsxToJinja.Proofs.Code.Cuts
import JsxToJinja.Proofs.Text.ByteOffsets

/-! Bracket matching. -/
namespace JsxToJinja.Code
open JsxToJinja.Text

variable {o c : Char} {w : List Char}

/-- Exactness does not depend on what stands around the group. -/
theorem balancedEnd?_group (hc : closingFor? o = some c) (hw : Sealed [] w) (p s : List Char) :
    balancedEnd? (p ++ o :: (w ++ c :: s)) p.length = some (p.length + (w.length + 1)) := by
  rw [balancedEnd?, List.drop_left, balancedLength?_group hc hw, Option.map_some]

theorem balanced?_group (hc : closingFor? o = some c) (hw : Sealed [] w) (p s : List Char) :
    balanced? (p ++ o :: (w ++ c :: s)) p.length = some (o :: (w ++ [c])) := by
  have htext : p ++ o :: (w ++ c :: s) = p ++ (o :: (w ++ [c]) ++ s) := by simp
  have hlen : p.length + (w.length + 1) + 1 = p.length + (o :: (w ++ [c])).length := by simp; omega
  rw [balanced?, balancedEnd?_group hc hw, Option.map_some, slice, htext, hlen,
    List.take_length_add_append, List.take_left, List.drop_left]

theorem balancedInner?_group (hc : closingFor? o = some c) (hw : Sealed [] w) (p s : List Char) :
    balancedInner? (p ++ o :: (w ++ c :: s)) p.length = some w := by
  have htext : p ++ o :: (w ++ c :: s) = (p ++ [o]) ++ (w ++ c :: s) := by simp
  have hlen : p.length + (w.length + 1) = (p ++ [o]).length + w.length := by simp; omega
  have hstart : p.length + 1 = (p ++ [o]).length := by simp
  rw [balancedInner?, balancedEnd?_group hc hw, Option.map_some, slice, htext, hlen, hstart,
    List.take_length_add_append, List.take_left, List.drop_left]

/-- Byte offset of the bracket that closes the one at a byte offset. -/
def closingOffset? (t : List Char) (n : Nat) : Option Nat :=
  ((position? t n).bind (balancedEnd? t)).map (byteOffset t)

/-- From the offset of its opening bracket a group of properly nested text is found whole, whatever
stands around it. -/
theorem group_is_matched_in_any_context (hc : closingFor? o = some c) (hw : Sealed [] w)
    (p s : List Char) :
    closingOffset? (p ++ o :: (w ++ c :: s)) (byteLength p) = some (byteLength (p ++ o :: w)) ∧
      (position? (p ++ o :: (w ++ c :: s)) (byteLength p)).bind
        (balanced? (p ++ o :: (w ++ c :: s))) = some (o :: (w ++ [c])) ∧
      (position? (p ++ o :: (w ++ c :: s)) (byteLength p)).bind
        (balancedInner? (p ++ o :: (w ++ c :: s))) = some w := by
  rw [closingOffset?, position?_byteLength, Option.bind_some, Option.bind_some, Option.bind_some]
  refine ⟨?_, balanced?_group hc hw p s, balancedInner?_group hc hw p s⟩
  have htext : p ++ o :: (w ++ c :: s) = (p ++ o :: w) ++ c :: s := by simp
  have hlen : p.length + (w.length + 1) = (p ++ o :: w).length := by simp
  rw [balancedEnd?_group hc hw, Option.map_some, hlen, htext, byteOffset_append]

/-- Neither the closed bracket in the literal nor the open quote behind the group takes part. -/
theorem group_with_literal_is_matched :
    closingOffset? "é(f[\")\\\"\"]))\"".toList 2 = some 11 ∧
      balanced? "é(f[\")\\\"\"]))\"".toList 1 = some "(f[\")\\\"\"])".toList ∧
      balancedInner? "é(f[\")\\\"\"]))\"".toList 1 = some "f[\")\\\"\"]".toList := by
  have hbody : LiteralBody '\x22' [')', '\\', '\x22'] :=
    .plain (by decide) (by decide) (.escape .nil)
  have hgroup : Sealed [] ('[' :: (['\x22', ')', '\\', '\x22', '\x22'] ++ [']'])) :=
    .bracket rfl (sealed_literal rfl hbody)
  have hw : Sealed [] ('f' :: ('[' :: (['\x22', ')', '\\', '\x22', '\x22'] ++ [']']))) :=
    .plain (List.not_mem_nil) rfl hgroup
  exact group_is_matched_in_any_context (o := '(') rfl hw ['é'] [')', '\x22']

end JsxToJinja.Code
