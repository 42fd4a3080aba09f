import JsxToJinja.Json.Parser
import JsxToJinja.Json.Printer
import JsxToJinja.Proofs.Number.Grammar

/-! What is printed is read back: every text of a value keeps the grammar, and all but its numbers
is as it was. -/
namespace JsxToJinja.Json

/-! ### Strings -/

private theorem hexValue?_hexDigit : ∀ n < 16, hexValue? (hexDigit n) = some n := by decide

private theorem unicodeEscape?_control {n : Nat} (hn : n < 32) (t : List Char) :
    unicodeEscape? ('0' :: '0' :: hexDigit (n / 16) :: hexDigit (n % 16) :: t) =
      some (some (Char.ofNat n), t) := by
  have hzero : hexValue? '0' = some 0 := by decide
  have hhigh := hexValue?_hexDigit (n / 16) (by omega)
  have hlow := hexValue?_hexDigit (n % 16) (by omega)
  have hvalue : n / 16 * 16 + n % 16 = n := by omega
  have hnone (a b : Nat) (h : n < a) : (decide (a ≤ n) && decide (n < b)) = false := by
    rw [Bool.and_eq_false_iff]
    exact .inl (decide_eq_false (by omega))
  have hread : hex4? ('0' :: '0' :: hexDigit (n / 16) :: hexDigit (n % 16) :: t) = some (n, t) := by
    simp [hex4?, hzero, hhigh, hlow, hvalue]
  rw [unicodeEscape?, hread, Option.bind_eq_bind, Option.bind_some]
  dsimp only
  rw [hnone _ _ (by omega), hnone _ _ (by omega)]
  rfl

private theorem stringTail?_escapeChar (c : Char) (fuel : Nat) (read t : List Char) :
    stringTail? (fuel + 1) (some read) (escapeChar c ++ t) =
      stringTail? fuel (some (c :: read)) t := by
  have hof : Char.ofNat c.toNat = c := Char.ofNat_toNat c
  unfold escapeChar
  split
  case h_8 =>
    rename_i hquote hslash _ _ _ _ _
    split
    · rename_i hcontrol
      have hread := unicodeEscape?_control hcontrol t
      simp [stringTail?, hread, hof, extended]
    · rename_i hcontrol
      have hne : (c == '\x22') = false ∧ (c == '\\') = false := by
        constructor <;> rw [beq_eq_false_iff_ne] <;> rintro rfl
        · exact hquote rfl
        · exact hslash rfl
      rw [List.singleton_append, stringTail?.eq_def]
      simp [hne, hcontrol, extended]
  all_goals
    rename_i hn
    rw [hn] at hof
    subst hof
    simp [stringTail?, simpleEscape?, extended]

/-- A string is read back from between its quotes. -/
theorem string?_quoted (s : String) (rest : List Char) :
    string? (s.toList.flatMap escapeChar ++ '\x22' :: rest) = some (some s, rest) := by
  have htail (cs read : List Char) (fuel : Nat) (h : cs.length < fuel) :
      stringTail? fuel (some read) (cs.flatMap escapeChar ++ '\x22' :: rest) =
        some (some (String.ofList (read.reverse ++ cs)), rest) := by
    induction cs generalizing read fuel with
    | nil =>
      obtain ⟨fuel, rfl⟩ : ∃ f, fuel = f + 1 := ⟨fuel - 1, by simp at h; omega⟩
      simp [stringTail?]
    | cons c cs ih =>
      obtain ⟨fuel, rfl⟩ : ∃ f, fuel = f + 1 := ⟨fuel - 1, by simp at h; omega⟩
      rw [List.flatMap_cons, List.append_assoc, stringTail?_escapeChar, ih _ _ (by simpa using h)]
      simp
  have hlen : s.toList.length ≤ (s.toList.flatMap escapeChar).length := by
    induction s.toList with
    | nil => simp
    | cons c cs ih =>
      have hone : 1 ≤ (escapeChar c).length := by
        unfold escapeChar
        split
        case h_8 => split <;> simp
        all_goals simp
      simp only [List.flatMap_cons, List.length_append, List.length_cons]
      omega
  rw [string?, htail _ _ _ (by simp only [List.length_append]; omega)]
  simp

/-! ### Blanks -/

@[simp] theorem skipSpace_cons_of_space {c : Char} (h : isSpace c = true) (t : List Char) :
    skipSpace (c :: t) = skipSpace t := by simp [skipSpace, h]

@[simp] theorem skipSpace_cons {c : Char} (h : isSpace c = false) (t : List Char) :
    skipSpace (c :: t) = c :: t := by simp [skipSpace, h]

private theorem skipSpace_idem (t : List Char) : skipSpace (skipSpace t) = skipSpace t := by
  induction t with
  | nil => rfl
  | cons c t ih =>
    cases h : isSpace c with
    | true => rwa [skipSpace_cons_of_space h]
    | false => rw [skipSpace_cons h, skipSpace_cons h]

theorem readValue?_skipSpace (fuel depth : Nat) (t : List Char) :
    readValue? fuel depth (skipSpace t) = readValue? fuel depth t := by
  cases fuel with
  | zero => rfl
  | succ fuel =>
    -- one unfolding shows the skipped blanks, and the equations of the function would take long
    conv => lhs; whnf
    conv => rhs; whnf
    rw [skipSpace_idem]

theorem readItems?_skipSpace (fuel depth : Nat) (t : List Char) :
    readItems? fuel depth (skipSpace t) = readItems? fuel depth t := by
  cases fuel with
  | zero => simp [readItems?]
  | succ fuel => rw [readItems?, readItems?, readValue?_skipSpace]

theorem readFields?_skipSpace (fuel depth : Nat) (t : List Char) :
    readFields? fuel depth (skipSpace t) = readFields? fuel depth t := by
  cases fuel with
  | zero => simp [readFields?]
  | succ fuel => rw [readFields?, readFields?, skipSpace_idem]

def blockTail (k : Nat) (closing : Char) : List String → List Char
  | [] => '\n' :: ((indentOf k).toList ++ [closing])
  | e :: rest =>
    ',' :: '\n' :: ((indentOf (k + 1)).toList ++ (e.toList ++ blockTail k closing rest))

theorem toList_block (opening : String) {closing : String} {c : Char} (hc : closing.toList = [c])
    (k : Nat) (e : String) (rest : List String) :
    (block opening closing k (e :: rest)).toList = opening.toList ++
      '\n' :: ((indentOf (k + 1)).toList ++ (e.toList ++ blockTail k c rest)) := by
  have htail (e : String) :
      ",\n".toList.intercalate ((e :: rest).map (String.toList ∘ (indentOf (k + 1) ++ ·))) ++
          '\n' :: ((indentOf k).toList ++ [c]) =
        (indentOf (k + 1)).toList ++ (e.toList ++ blockTail k c rest) := by
    induction rest generalizing e with
    | nil => simp [blockTail]
    | cons f rest ih =>
      have hf := ih f
      rw [List.map_cons] at hf
      rw [List.map_cons, List.map_cons, List.intercalate_cons_cons, List.append_assoc, hf,
        blockTail]
      simp
  rw [← htail, block]
  simp only [String.toList_append, String.toList_intercalate, List.map_map, hc, List.append_assoc]
  rfl

theorem skipSpace_indent (k : Nat) (t : List Char) :
    skipSpace ('\n' :: ((indentOf k).toList ++ t)) = skipSpace t := by
  rw [skipSpace_cons_of_space (by decide), skipSpace, List.dropWhile_append_of_pos, skipSpace]
  intro c hc
  have hblank : c = ' ' := by
    rw [indentOf, String.toList_ofList] at hc
    exact List.eq_of_mem_replicate hc
  rw [hblank]
  decide

theorem skipSpace_blockTail_nil {c : Char} (hc : isSpace c = false) (k : Nat) (rest : List Char) :
    skipSpace (blockTail k c [] ++ rest) = c :: rest := by
  rw [blockTail, List.cons_append, List.append_assoc, skipSpace_indent, List.singleton_append,
    skipSpace_cons hc]

theorem skipSpace_blockTail_cons (k : Nat) (c : Char) (e : String) (entries : List String)
    (rest : List Char) :
    skipSpace (blockTail k c (e :: entries) ++ rest) =
      ',' :: '\n' ::
        ((indentOf (k + 1)).toList ++ (e.toList ++ (blockTail k c entries ++ rest))) := by
  rw [blockTail, List.cons_append, skipSpace_cons (by decide)]
  simp

theorem endsNumber_blockTail (k : Nat) (closing : Char) (entries : List String) (rest : List Char) :
    Number.EndsNumber (blockTail k closing entries ++ rest) := by
  cases entries <;> exact (Number.endsNumber_cons _ _).2 (by decide)

/-! ### Values -/

/-- At most so many arrays and objects in each other. -/
inductive Within : Nat → Json → Prop where
  | null {n : Nat} : Within n .null
  | bool {n : Nat} (b : Bool) : Within n (.bool b)
  | num {n : Nat} (x : Number) : Within n (.num x)
  | str {n : Nat} (s : String) : Within n (.str s)
  | arr {n : Nat} {items : List Json} : (∀ v ∈ items, Within n v) → Within (n + 1) (.arr items)
  | obj {n : Nat} {fields : List (String × Json)} :
    (∀ f ∈ fields, Within n f.2) → Within (n + 1) (.obj fields)

mutual

/-- What the text of a value holds. Numbers are read anew. -/
def written : Json → Written
  | .null => .null
  | .bool b => .bool b
  | .num n => (Number.parse? n.text.toList).elim .unread .num
  | .str s => .str s
  | .arr items => .arr (writtenItems items)
  | .obj fields => .obj (writtenFields fields)

def writtenItems : List Json → List Written
  | [] => []
  | v :: rest => written v :: writtenItems rest

def writtenFields : List (String × Json) → List (String × Written)
  | [] => []
  | (k, v) :: rest => (k, written v) :: writtenFields rest

end

theorem writtenItems_eq (items : List Json) : writtenItems items = items.map written := by
  induction items with
  | nil => rfl
  | cons v rest ih => rw [writtenItems, ih, List.map_cons]

theorem writtenFields_eq (fields : List (String × Json)) :
    writtenFields fields = fields.map fun f => (f.1, written f.2) := by
  induction fields with
  | nil => rfl
  | cons f rest ih => rw [writtenFields, ih, List.map_cons]

@[simp] theorem prettyAt_null (k : Nat) : prettyAt k .null = "null" := rfl

@[simp] theorem prettyAt_bool (k : Nat) (b : Bool) :
    prettyAt k (.bool b) = if b then "true" else "false" := rfl

@[simp] theorem prettyAt_num (k : Nat) (n : Number) : prettyAt k (.num n) = n.text := rfl

@[simp] theorem prettyAt_str (k : Nat) (s : String) : prettyAt k (.str s) = quoted s := rfl

@[simp] theorem prettyAt_arr_nil (k : Nat) : prettyAt k (.arr []) = "[]" := rfl

theorem prettyAt_arr_cons (k : Nat) (v : Json) (rest : List Json) : prettyAt k (.arr (v :: rest)) =
    block "[" "]" k (prettyAt (k + 1) v :: prettyItems (k + 1) rest) := rfl

@[simp] theorem prettyAt_obj_nil (k : Nat) : prettyAt k (.obj []) = "\x7b\x7d" := rfl

theorem prettyAt_obj_cons (k : Nat) (f : String × Json) (rest : List (String × Json)) :
    prettyAt k (.obj (f :: rest)) = block "\x7b" "\x7d" k
      ((quoted f.1 ++ ": " ++ prettyAt (k + 1) f.2) :: prettyFields (k + 1) rest) := rfl

theorem prettyItems_eq (k : Nat) (items : List Json) :
    prettyItems k items = items.map (prettyAt k) := by
  induction items with
  | nil => rfl
  | cons v rest ih => rw [prettyItems, ih, List.map_cons]

def fieldLine (k : Nat) (f : String × Json) : String := quoted f.1 ++ ": " ++ prettyAt k f.2

theorem prettyFields_eq (k : Nat) (fields : List (String × Json)) :
    prettyFields k fields = fields.map (fieldLine k) := by
  induction fields with
  | nil => rfl
  | cons f rest ih => rw [prettyFields, ih, List.map_cons, fieldLine]

/-- The text of a value is read as what it holds, in front of all that no number goes on with. -/
def ReadsBack (depth k : Nat) (v : Json) : Prop :=
  ∀ fuel rest, (prettyAt k v).toList.length ≤ fuel → Number.EndsNumber rest →
    readValue? fuel depth ((prettyAt k v).toList ++ rest) = some (v.written, rest)

/-! ### Entries of a block -/

private theorem readItems?_step {depth fuel : Nat} {t r : List Char} {w : Written}
    (hread : readValue? fuel depth t = some (w, r)) :
    readItems? (fuel + 1) depth t =
      match skipSpace r with
      | ',' :: t => (readItems? fuel depth t).bind fun p => some (w :: p.1, p.2)
      | ']' :: t => some ([w], t)
      | _ => none := by
  rw [readItems?, hread]
  rfl

/-- Once its first item is read, an array is read to its bracket. -/
theorem readItems?_behind {depth k : Nat} {items : List Json}
    (h : ∀ v ∈ items, ReadsBack depth (k + 1) v) {w : Written} {t rest : List Char} {fuel : Nat}
    (hread : readValue? fuel depth t =
      some (w, blockTail k ']' (items.map (prettyAt (k + 1))) ++ rest))
    (hfuel : (blockTail k ']' (items.map (prettyAt (k + 1)))).length ≤ fuel) :
    readItems? (fuel + 1) depth t = some (w :: items.map written, rest) := by
  induction items generalizing w t fuel with
  | nil =>
    rw [List.map_nil] at hread
    simp only [readItems?_step hread, skipSpace_blockTail_nil (c := ']') (by decide), List.map_nil]
  | cons v items ih =>
    rw [List.map_cons] at hread hfuel
    simp only [blockTail, List.length_cons, List.length_append] at hfuel
    obtain ⟨fuel, rfl⟩ : ∃ f, fuel = f + 1 := ⟨fuel - 1, by omega⟩
    have hv := h v (by simp) fuel (blockTail k ']' (items.map (prettyAt (k + 1))) ++ rest)
      (by omega) (endsNumber_blockTail _ _ _ _)
    rw [← readValue?_skipSpace, ← skipSpace_indent (k + 1), readValue?_skipSpace] at hv
    have hitems := ih (fun v hv => h v (by simp [hv])) hv (by omega)
    simp only [readItems?_step hread, skipSpace_blockTail_cons, hitems, Option.bind_some,
      List.map_cons]

private theorem readFields?_step {depth fuel : Nat} {key : String} {t r : List Char} {w : Written}
    (hread : readValue? fuel depth t = some (w, r)) :
    readFields? (fuel + 1) depth ((quoted key).toList ++ ':' :: t) =
      match skipSpace r with
      | ',' :: t => (readFields? fuel depth t).bind fun p => some ((some key, w) :: p.1, p.2)
      | '\x7d' :: t => some ([(some key, w)], t)
      | _ => none := by
  have hquoted : (quoted key).toList ++ ':' :: t =
      '\x22' :: (key.toList.flatMap escapeChar ++ '\x22' :: ':' :: t) := by simp [quoted]
  rw [hquoted, readFields?, skipSpace_cons (by decide)]
  change (string? _).bind _ = _
  rw [string?_quoted, Option.bind_some]
  dsimp only
  rw [skipSpace_cons (by decide)]
  change (readValue? fuel depth t).bind _ = _
  rw [hread]
  rfl

/-- Once the value of its first field is read, an object is read to its brace. -/
theorem readFields?_behind {depth k : Nat} {fields : List (String × Json)}
    (h : ∀ f ∈ fields, ReadsBack depth (k + 1) f.2) (key : String) {w : Written}
    {t rest : List Char} {fuel : Nat}
    (hread : readValue? fuel depth t =
      some (w, blockTail k '\x7d' (fields.map (fieldLine (k + 1))) ++ rest))
    (hfuel : (blockTail k '\x7d' (fields.map (fieldLine (k + 1)))).length ≤ fuel) :
    readFields? (fuel + 1) depth ((quoted key).toList ++ ':' :: t) =
      some ((some key, w) :: fields.map fun f => (some f.1, written f.2), rest) := by
  induction fields generalizing key w t fuel with
  | nil =>
    rw [List.map_nil] at hread
    simp only [readFields?_step hread, skipSpace_blockTail_nil (c := '\x7d') (by decide),
      List.map_nil]
  | cons f fields ih =>
    rw [List.map_cons] at hread hfuel
    simp only [blockTail, fieldLine, String.toList_append, List.length_cons,
      List.length_append] at hfuel
    obtain ⟨fuel, rfl⟩ : ∃ f, fuel = f + 1 := ⟨fuel - 1, by omega⟩
    have hv := h f (by simp) fuel (blockTail k '\x7d' (fields.map (fieldLine (k + 1))) ++ rest)
      (by omega) (endsNumber_blockTail _ _ _ _)
    rw [← readValue?_skipSpace, ← skipSpace_cons_of_space (c := ' ') (by decide),
      readValue?_skipSpace] at hv
    have hfields := ih (fun f hf => h f (by simp [hf])) f.1 hv (by omega)
    rw [← readFields?_skipSpace, ← skipSpace_indent (k + 1), readFields?_skipSpace] at hfields
    have hline : (fieldLine (k + 1) f).toList =
        (quoted f.1).toList ++ (':' :: ' ' :: (prettyAt (k + 1) f.2).toList) := by
      simp [fieldLine]
    simp only [readFields?_step hread, skipSpace_blockTail_cons, hline, List.append_assoc,
      List.cons_append, hfields, Option.bind_some, List.map_cons]

/-! ### Whole values -/

private theorem isSpace_of_numeric {c : Char} (h : Number.isNumeric c = true) :
    isSpace c = false := by
  cases hs : isSpace c with
  | false => rfl
  | true =>
    simp only [isSpace, Bool.or_eq_true, beq_iff_eq] at hs
    obtain ((rfl | rfl) | rfl) | rfl := hs <;> exact absurd h (by decide)

private theorem readValue?_number {c : Char} (hc : Number.isNumeric c = true) (fuel depth : Nat)
    (t : List Char) : readValue? (fuel + 1) depth (c :: t) =
      (Number.read? (c :: t)).map fun p => (p.1.elim .unread .num, p.2) := by
  conv => lhs; whnf
  rw [skipSpace_cons (isSpace_of_numeric hc)]
  split
  case h_7 => rfl
  all_goals
    rename_i heq
    rw [(List.cons.inj heq).1] at hc
    exact absurd hc (by decide)

private theorem readValue?_str (fuel depth : Nat) (r : List Char) :
    readValue? (fuel + 1) depth ('\x22' :: r) =
      (string? r).map fun p => (p.1.elim .unread .str, p.2) := rfl

private theorem readValue?_arr {fuel depth : Nat} {r : List Char}
    (hne : ∀ u, skipSpace r ≠ ']' :: u) : readValue? (fuel + 1) depth ('[' :: r) =
      (readItems? fuel (depth - 1) r).map fun p => (within depth (.arr p.1), p.2) := by
  rw [← readItems?_skipSpace]
  conv => lhs; whnf
  split
  · rename_i u hu
    exact absurd hu (hne u)
  · rfl

private theorem readValue?_obj {fuel depth : Nat} {r : List Char}
    (hne : ∀ u, skipSpace r ≠ '\x7d' :: u) : readValue? (fuel + 1) depth ('\x7b' :: r) =
      (readFields? fuel (depth - 1) r).map fun p => (within depth (.ofFields p.1), p.2) := by
  rw [← readFields?_skipSpace]
  conv => lhs; whnf
  split
  · rename_i u hu
    exact absurd hu (hne u)
  · rfl

/-- An object with all its keys. -/
theorem ofFields_some (fields : List (String × Written)) :
    Written.ofFields (fields.map fun f => (some f.1, f.2)) = .obj fields := by
  have hkeys : (fields.map fun f => (some f.1, f.2)).mapM
      (fun f : Option String × Written => f.1.map (·, f.2)) = some fields := by
    induction fields with
    | nil => rfl
    | cons f rest ih => rw [List.map_cons, List.mapM_cons, ih]; rfl
  rw [Written.ofFields, hkeys]

private theorem exists_numeric_head (n : Number) :
    ∃ c t, n.text.toList = c :: t ∧ Number.isNumeric c = true := by
  obtain ⟨m, hm⟩ := Number.isNumber_text n
  cases ht : n.text.toList with
  | nil =>
    rw [ht] at hm
    cases hm
  | cons c t =>
    rw [ht] at hm
    exact ⟨c, t, rfl, Number.numeric_of_read? hm c (by simp)⟩

private theorem head_pretty (k : Nat) (v : Json) :
    ∃ c t, (prettyAt k v).toList = c :: t ∧ isSpace c = false ∧ c ≠ ']' := by
  cases v with
  | null => exact ⟨'n', ['u', 'l', 'l'], by simp, by decide, by decide⟩
  | bool b =>
    cases b with
    | false => exact ⟨'f', ['a', 'l', 's', 'e'], by simp, by decide, by decide⟩
    | true => exact ⟨'t', ['r', 'u', 'e'], by simp, by decide, by decide⟩
  | num n =>
    obtain ⟨c, t, ht, hc⟩ := exists_numeric_head n
    refine ⟨c, t, by rw [prettyAt_num, ht], isSpace_of_numeric hc, ?_⟩
    rintro rfl
    exact absurd hc (by decide)
  | str s =>
    exact ⟨'\x22', _, by rw [prettyAt_str, quoted, String.toList_append, String.toList_append]; rfl,
      by decide, by decide⟩
  | arr items =>
    cases items with
    | nil => exact ⟨'[', [']'], by simp, by decide, by decide⟩
    | cons v items =>
      exact ⟨'[', _, by rw [prettyAt_arr_cons, toList_block _ (c := ']') (by simp)]; rfl,
        by decide, by decide⟩
  | obj fields =>
    cases fields with
    | nil => exact ⟨'\x7b', ['\x7d'], by simp, by decide, by decide⟩
    | cons f fields =>
      exact ⟨'\x7b', _, by rw [prettyAt_obj_cons, toList_block _ (c := '\x7d') (by simp)]; rfl,
        by decide, by decide⟩

private theorem readsBack_num (depth k : Nat) (x : Number) : ReadsBack depth k (.num x) := by
  intro fuel rest hfuel hrest
  obtain ⟨c, t, ht, hc⟩ := exists_numeric_head x
  obtain ⟨m, hm⟩ := Number.isNumber_text x
  rw [prettyAt_num] at hfuel ⊢
  rw [ht] at hm hfuel ⊢
  obtain ⟨fuel, rfl⟩ : ∃ f, fuel = f + 1 := ⟨fuel - 1, by simp at hfuel; omega⟩
  rw [List.cons_append, readValue?_number hc, ← List.cons_append, Number.read?_append hrest, hm,
    written, ht, Number.parse?, hm]
  rfl

private theorem readsBack_str (depth k : Nat) (s : String) : ReadsBack depth k (.str s) := by
  intro fuel rest hfuel _
  have htext : (prettyAt k (.str s)).toList =
      '\x22' :: (s.toList.flatMap escapeChar ++ ['\x22']) := by simp [quoted]
  rw [htext] at hfuel ⊢
  obtain ⟨fuel, rfl⟩ : ∃ f, fuel = f + 1 := ⟨fuel - 1, by simp at hfuel; omega⟩
  rw [List.cons_append, List.append_assoc, readValue?_str, List.singleton_append, string?_quoted]
  rfl

private theorem readsBack_arr {n k : Nat} {items : List Json}
    (h : ∀ v ∈ items, ReadsBack (n + 1) (k + 1) v) : ReadsBack (n + 1 + 1) k (.arr items) := by
  intro fuel rest hfuel _
  cases items with
  | nil =>
    have htext : (prettyAt k (.arr [])).toList = ['[', ']'] := by simp
    rw [htext] at hfuel ⊢
    obtain ⟨fuel, rfl⟩ : ∃ f, fuel = f + 1 := ⟨fuel - 1, by simp at hfuel; omega⟩
    rfl
  | cons v items =>
    have htext : (prettyAt k (.arr (v :: items))).toList = '[' :: '\n' ::
        ((indentOf (k + 1)).toList ++ ((prettyAt (k + 1) v).toList ++
          blockTail k ']' (items.map (prettyAt (k + 1))))) := by
      rw [prettyAt_arr_cons, toList_block "[" (c := ']') (by simp), prettyItems_eq]
      simp
    rw [htext] at hfuel ⊢
    simp only [List.length_append, List.length_cons] at hfuel
    obtain ⟨fuel, rfl⟩ : ∃ f, fuel = f + 2 := ⟨fuel - 2, by omega⟩
    have hitems := readItems?_behind (fun v hv => h v (by simp [hv]))
      (h v (by simp) fuel (blockTail k ']' (items.map (prettyAt (k + 1))) ++ rest)
        (by omega) (endsNumber_blockTail _ _ _ _)) (by omega)
    obtain ⟨c, t, hhead, hblank, hclose⟩ := head_pretty (k + 1) v
    rw [List.cons_append, readValue?_arr, List.cons_append, List.append_assoc, List.append_assoc,
      ← readItems?_skipSpace, skipSpace_indent, readItems?_skipSpace, Nat.add_sub_cancel, hitems]
    · simp [within, written, writtenItems_eq]
    · intro u hu
      rw [List.cons_append, List.append_assoc, skipSpace_indent, List.append_assoc, hhead,
        List.cons_append, skipSpace_cons hblank] at hu
      exact hclose (List.cons.inj hu).1

private theorem readsBack_obj {n k : Nat} {fields : List (String × Json)}
    (h : ∀ f ∈ fields, ReadsBack (n + 1) (k + 1) f.2) : ReadsBack (n + 1 + 1) k (.obj fields) := by
  intro fuel rest hfuel _
  cases fields with
  | nil =>
    have htext : (prettyAt k (.obj [])).toList = ['\x7b', '\x7d'] := by simp
    rw [htext] at hfuel ⊢
    obtain ⟨fuel, rfl⟩ : ∃ f, fuel = f + 1 := ⟨fuel - 1, by simp at hfuel; omega⟩
    rfl
  | cons f fields =>
    have htext : (prettyAt k (.obj (f :: fields))).toList = '\x7b' :: '\n' ::
        ((indentOf (k + 1)).toList ++ ((quoted f.1).toList ++ ':' :: ' ' ::
          ((prettyAt (k + 1) f.2).toList ++
            blockTail k '\x7d' (fields.map (fieldLine (k + 1)))))) := by
      rw [prettyAt_obj_cons, toList_block "\x7b" (c := '\x7d') (by simp), prettyFields_eq]
      simp
    rw [htext] at hfuel ⊢
    simp only [List.length_append, List.length_cons] at hfuel
    obtain ⟨fuel, rfl⟩ : ∃ f, fuel = f + 2 := ⟨fuel - 2, by omega⟩
    have hv := h f (by simp) fuel
      (blockTail k '\x7d' (fields.map (fieldLine (k + 1))) ++ rest) (by omega)
      (endsNumber_blockTail _ _ _ _)
    rw [← readValue?_skipSpace, ← skipSpace_cons_of_space (c := ' ') (by decide),
      readValue?_skipSpace] at hv
    have hfields := readFields?_behind (fun g hg => h g (by simp [hg])) f.1 hv (by omega)
    have hquoted (t : List Char) : ∃ u, (quoted f.1).toList ++ t = '\x22' :: u :=
      ⟨_, by rw [quoted, String.toList_append, String.toList_append]; rfl⟩
    rw [List.cons_append, readValue?_obj, List.cons_append, List.append_assoc, List.append_assoc,
      ← readFields?_skipSpace, skipSpace_indent, readFields?_skipSpace, Nat.add_sub_cancel,
      List.cons_append, List.cons_append, List.append_assoc, hfields, Option.map_some]
    · have hall : (some f.1, f.2.written) :: fields.map (fun g => (some g.1, g.2.written)) =
          (writtenFields (f :: fields)).map fun g => (some g.1, g.2) := by
        simp [writtenFields_eq]
      simp [hall, ofFields_some, within, written]
    · intro u hu
      obtain ⟨t, ht⟩ := hquoted (':' :: ' ' :: ((prettyAt (k + 1) f.2).toList ++
        blockTail k '\x7d' (fields.map (fieldLine (k + 1)))))
      rw [ht, List.cons_append, List.append_assoc, skipSpace_indent, List.cons_append,
        skipSpace_cons (by decide)] at hu
      exact absurd (List.cons.inj hu).1 (by decide)

/-- What is printed for a value is read as what it holds, where that many arrays and objects may
open. -/
theorem Within.readsBack {n : Nat} {v : Json} (hv : Within n v) : ∀ k, ReadsBack (n + 1) k v := by
  induction hv with
  | null =>
    intro k fuel rest hfuel _
    have htext : (prettyAt k .null).toList = ['n', 'u', 'l', 'l'] := by simp
    rw [htext] at hfuel ⊢
    obtain ⟨fuel, rfl⟩ : ∃ f, fuel = f + 1 := ⟨fuel - 1, by simp at hfuel; omega⟩
    rfl
  | bool b =>
    intro k fuel rest hfuel _
    have htext : (prettyAt k (.bool b)).toList =
        if b then ['t', 'r', 'u', 'e'] else ['f', 'a', 'l', 's', 'e'] := by
      cases b <;> simp
    rw [htext] at hfuel ⊢
    obtain ⟨fuel, rfl⟩ : ∃ f, fuel = f + 1 :=
      ⟨fuel - 1, by cases b <;> simp at hfuel <;> omega⟩
    cases b <;> rfl
  | num x => exact fun k => readsBack_num _ k x
  | str s => exact fun k => readsBack_str _ k s
  | arr _ ih => exact fun k => readsBack_arr fun v hv => ih v hv (k + 1)
  | obj _ ih => exact fun k => readsBack_obj fun f hf => ih f hf (k + 1)

/-- A value that does not nest too deep is read back from its text, and a line end may follow. -/
theorem parse?_pretty {v : Json} (hv : Within 127 v) :
    Written.parse? (v.pretty ++ "\n") = some v.written := by
  have hread := hv.readsBack 0 ((v.pretty ++ "\n").toList.length + 1) ['\n'] (by
    rw [String.toList_append, List.length_append, ← pretty]
    omega) ((Number.endsNumber_cons _ _).2 (by decide))
  have htext : (prettyAt 0 v).toList ++ ['\n'] = (v.pretty ++ "\n").toList := by simp [pretty]
  rw [htext] at hread
  rw [Written.parse?]
  simp only [maxDepth, hread]
  rfl

end JsxToJinja.Json
