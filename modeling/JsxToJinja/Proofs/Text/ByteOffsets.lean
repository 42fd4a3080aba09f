import JsxToJinja.Text.Slice

/-! Byte offsets and positions of the same characters. -/
namespace JsxToJinja.Text

theorem byteLength_append (u w : List Char) : byteLength (u ++ w) = byteLength u + byteLength w := by
  induction u with
  | nil => rw [List.nil_append, byteLength, Nat.zero_add]
  | cons c u ih => rw [List.cons_append, byteLength, byteLength, ih, Nat.add_assoc]

theorem byteLength_le_of_prefix {u w : List Char} (h : u <+: w) : byteLength u ≤ byteLength w := by
  obtain ⟨rest, rfl⟩ := h
  rw [byteLength_append]
  exact Nat.le_add_right _ _

/-- Whatever stands behind a text, the offset of its end is the position of its end. -/
theorem position?_byteLength (p s : List Char) : position? (p ++ s) (byteLength p) = some p.length := by
  induction p with
  | nil => rw [byteLength, position?, List.length_nil]
  | cons c p ih =>
    obtain ⟨k, hk⟩ : ∃ k, byteLength (c :: p) = k + 1 :=
      Nat.exists_eq_add_one_of_ne_zero (by have := c.utf8Size_pos; rw [byteLength]; omega)
    have hrest : k + 1 - c.utf8Size = byteLength p := by rw [← hk, byteLength]; omega
    rw [hk, List.cons_append, position?, if_pos (by rw [← hk, byteLength]; omega), hrest, ih,
      Option.map_some, List.length_cons]

theorem byteOffset_append (p s : List Char) : byteOffset (p ++ s) p.length = byteLength p := by
  rw [byteOffset, List.take_left]

theorem byteOffset_succ {t w : List Char} {c : Char} {i : Nat} (h : t.drop i = c :: w) :
    byteOffset t (i + 1) = byteOffset t i + c.utf8Size := by
  have htake : t.take (i + 1) = t.take i ++ [c] := by
    rw [List.take_add, h, List.take_succ_cons, List.take_zero]
  rw [byteOffset, byteOffset, htake, byteLength_append, byteLength, byteLength, Nat.add_zero]

/-- A position is found for offsets between characters only. -/
theorem byteOffset_of_position? {t : List Char} {n i : Nat} (h : position? t n = some i) :
    i ≤ t.length ∧ byteOffset t i = n := by
  induction t generalizing n i with
  | nil =>
    cases n with
    | zero => cases h; exact ⟨Nat.zero_le _, rfl⟩
    | succ n => cases h
  | cons c t ih =>
    cases n with
    | zero => cases h; exact ⟨Nat.zero_le _, rfl⟩
    | succ n =>
      rw [position?] at h
      split at h
      · rename_i hle
        obtain ⟨j, hj, rfl⟩ := Option.map_eq_some_iff.1 h
        obtain ⟨hlen, hoff⟩ := ih hj
        refine ⟨Nat.succ_le_succ hlen, ?_⟩
        rw [byteOffset] at hoff
        rw [byteOffset, List.take_succ_cons, byteLength, hoff]
        omega
      · cases h

theorem byteOffset_le {t : List Char} {i j : Nat} (h : i ≤ j) : byteOffset t i ≤ byteOffset t j :=
  byteLength_le_of_prefix (List.take_prefix_take_left h)

/-- Offsets grow with every character. -/
theorem byteOffset_lt {t : List Char} {i j : Nat} (h : i < j) (hj : j ≤ t.length) :
    byteOffset t i < byteOffset t j := by
  have hi : i < t.length := Nat.lt_of_lt_of_le h hj
  refine Nat.lt_of_lt_of_le ?_ (byteOffset_le h)
  have := t[i].utf8Size_pos
  rw [byteOffset_succ (List.drop_eq_getElem_cons hi)]
  omega

end JsxToJinja.Text
