import JsxToJinja.Markup.Parser
import JsxToJinja.Proofs.Code.Names
import JsxToJinja.Proofs.Text.Pieces

/-! Texts of tags: a name, then properties and spreads in any order. Reading one gives back what it
was written from. -/
namespace JsxToJinja.Markup
open JsxToJinja.Text JsxToJinja.Code

/-- A name of a tag or of a property. Names with a colon are left out: in code the colon belongs to a
conditional. -/
structure IsName (t : List Char) : Prop where
  ne_nil : t ≠ []
  chars : ∀ c ∈ t, isNameChar c = true ∧ c ≠ ':'

/-- Values of properties: quoted text, which has no escapes of its own but closes for code as well, or
code between braces. -/
inductive IsPropText : PropValue → List Char → Prop where
  | quoted {q : Char} {body : List Char} : q = '\x27' ∨ q = '\x22' → q ∉ body →
      LiteralBody q body → IsPropText (.literal (String.ofList body)) (q :: (body ++ [q]))
  | braces {code : List Char} : Sealed [] code →
      IsPropText (.expression (String.ofList (trim code))) ('\x7b' :: (code ++ ['\x7d']))

/-- What follows the name of a tag up to its end. A name right behind a name needs a blank between
them. -/
inductive IsTagTail : Bool → List Property → List String → List Char → Prop where
  | done {glued : Bool} {p : List Char} : Blank p → IsTagTail glued [] [] p
  | flag {glued : Bool} {ps : List Property} {ss : List String} {p key t : List Char} :
      Blank p → (glued = true → p ≠ []) → IsName key → IsTagTail true ps ss t →
      IsTagTail glued (⟨String.ofList key, .flag⟩ :: ps) ss (p ++ (key ++ t))
  | value {glued : Bool} {ps : List Property} {ss : List String} {v : PropValue}
      {p key q r s t : List Char} :
      Blank p → (glued = true → p ≠ []) → IsName key → Blank q → Blank r → IsPropText v s →
      IsTagTail false ps ss t →
      IsTagTail glued (⟨String.ofList key, v⟩ :: ps) ss (p ++ (key ++ (q ++ '=' :: (r ++ (s ++ t)))))
  | spread {glued : Bool} {ps : List Property} {ss : List String} {p q r s code t : List Char} :
      Blank p → Blank q → Blank r → Blank s → Sealed [] code → Trimmed code → code ≠ [] →
      code.head? ≠ some '.' → IsTagTail false ps ss t →
      IsTagTail glued ps (String.ofList code :: ss)
        (p ++ '\x7b' :: ((q ++ ("...".toList ++ (r ++ (code ++ s)))) ++ '\x7d' :: t))

def tagEnd (closed : Bool) : List Char := if closed then ['/', '>'] else ['>']

/-! ### Characters of names -/

theorem isNameChar_cases {c : Char} (h : isNameChar c = true) :
    isIdentifierChar c = true ∨ c = '-' ∨ c = '.' ∨ c = ':' := by
  simp only [isNameChar, isIdentifierChar, Bool.or_eq_true, beq_iff_eq] at h ⊢
  rcases h with ((((h | h) | h) | h) | h) | h <;> simp [h]

theorem not_blank_of_isNameChar {c : Char} (h : isNameChar c = true) : isBlank c = false := by
  rcases isNameChar_cases h with h | rfl | rfl | rfl
  · exact not_blank_of_isIdentifierChar h
  all_goals decide

theorem isOrdinary_of_isNameChar {c : Char} (h : isNameChar c = true) : isOrdinary c = true := by
  rcases isNameChar_cases h with h | rfl | rfl | rfl
  · exact isOrdinary_of_isIdentifierChar h
  all_goals decide

theorem ne_of_isNameChar {c d : Char} (hc : isNameChar c = true) (hd : isNameChar d = false) :
    c ≠ d := by
  rintro rfl
  simp [hc] at hd

theorem not_isNameChar_of_isBlank {c : Char} (h : isBlank c = true) : isNameChar c = false := by
  rw [← Bool.not_eq_true]
  intro hn
  simp [not_blank_of_isNameChar hn] at h

/-- A name is read up to the first character that belongs to none. -/
theorem span_name {key rest : List Char} (hk : ∀ c ∈ key, isNameChar c = true)
    (hr : ∀ c ∈ rest.head?, isNameChar c = false) :
    (key ++ rest).takeWhile isNameChar = key ∧ (key ++ rest).dropWhile isNameChar = rest := by
  rw [List.takeWhile_append_of_pos hk, List.dropWhile_append_of_pos hk]
  cases rest with
  | nil => simp
  | cons c rest => simp [hr c rfl]

theorem IsName.cons {key : List Char} (hk : IsName key) :
    ∃ c t, key = c :: t ∧ isNameChar c = true := by
  cases key with
  | nil => exact absurd rfl hk.ne_nil
  | cons c t => exact ⟨c, t, rfl, (hk.chars c (by simp)).1⟩

/-! ### Values and spreads -/

/-- Code in braces is read up to the brace that closes it, without the blanks. -/
theorem braces?_group {code : List Char} (h : Sealed [] code) (rest : List Char) :
    braces? ('\x7b' :: (code ++ '\x7d' :: rest)) = some (trim code, rest) := by
  have hslice : slice ('\x7b' :: (code ++ '\x7d' :: rest)) 1 (code.length + 1) = code := by
    have := slice_append_left ['\x7b'] code ('\x7d' :: rest)
    simpa [Nat.add_comm] using this
  have hdrop : ('\x7b' :: (code ++ '\x7d' :: rest)).drop (code.length + 1 + 1) = rest := by
    simp
  have hclose : closingFor? '\x7b' = some '\x7d' := by decide
  simp only [braces?, balancedLength?_group hclose h, Option.map_some, hslice, hdrop]

theorem propValue?_quoted {q : Char} {body : List Char} (hq : q = '\x27' ∨ q = '\x22')
    (hmem : q ∉ body) (rest : List Char) :
    propValue? (q :: (body ++ q :: rest)) = some (.literal (String.ofList body), rest) := by
  have hquote : (q == '\x22' || q == '\x27') = true := by rcases hq with rfl | rfl <;> decide
  rw [propValue?, if_pos hquote, find?_of_notMem hmem rest]
  simp

theorem propValue?_braces {code : List Char} (hs : Sealed [] code) (rest : List Char) :
    propValue? ('\x7b' :: (code ++ '\x7d' :: rest)) =
      some (.expression (String.ofList (trim code)), rest) := by
  rw [propValue?, if_neg (by decide), if_pos (by decide), braces?_group hs rest]
  rfl

theorem propValue?_of_isPropText {v : PropValue} {s : List Char} (h : IsPropText v s)
    (rest : List Char) : propValue? (s ++ rest) = some (v, rest) := by
  cases h with
  | quoted hq hmem _ => simpa using propValue?_quoted hq hmem rest
  | braces hs => simpa using propValue?_braces hs rest

/-- The dots in front of a spread go once when no others follow. -/
theorem dropRepeated_dots {t : List Char} (h : startsWith t "...".toList = false) :
    dropRepeated "...".toList ("...".toList ++ t) = t := by
  have hlen : ("...".toList ++ t).length = t.length + 2 + 1 := by simp
  rw [dropRepeated, hlen, dropRepeated.go, if_neg (by decide), if_pos (startsWith_append_self _ _),
    List.drop_left, dropRepeated.go, if_neg (by decide), if_neg (ne_true_of_eq_false h)]

/-- What a spread names is left when blanks and dots are dropped. -/
theorem dropRepeated_spread {q r code s : List Char} (hq : Blank q) (hr : Blank r)
    (ht : Trimmed code) (hne : code ≠ []) (hd : code.head? ≠ some '.') (hs : Blank s) :
    trim (dropRepeated "...".toList (trim (q ++ ("...".toList ++ (r ++ (code ++ s)))))) = code := by
  have htrim : trim (q ++ ("...".toList ++ (r ++ (code ++ s)))) = "...".toList ++ (r ++ code) := by
    have hdots : Trimmed "...".toList := ⟨by decide, by decide⟩
    have := trim_pad hq (hdots.between ht (by decide) hne r) hs
    simpa only [List.append_assoc] using this
  have hhead : (r ++ code).head? ≠ some '.' := by
    cases r with
    | nil =>
      cases code with
      | nil => exact absurd rfl hne
      | cons c code => simpa using hd
    | cons c r =>
      simp only [List.cons_append, List.head?_cons, ne_eq, Option.some.injEq]
      rintro rfl
      exact absurd (hr '.' (by simp)) (by decide)
  have hstop : startsWith (r ++ code) "...".toList = false := startsWith_of_head hhead _
  rw [htrim, dropRepeated_dots hstop]
  simpa using trim_pad hr ht blank_nil

/-! ### Reading of a tag -/

theorem trimStart_trimStart (t : List Char) : trimStart (trimStart t) = trimStart t := by
  cases h : trimStart t with
  | nil => rfl
  | cons c u =>
    have hc : isBlank c = false := by
      have hdrop := List.head?_dropWhile_not isBlank t
      rw [trimStart] at h
      simpa [h] using hdrop
    exact trimStart_append_cons blank_nil hc u

theorem tagTail?_trimStart (name : String) (fuel : Nat) (ps : List Property) (ss : List String)
    (t : List Char) : tagTail? name fuel ps ss (trimStart t) = tagTail? name fuel ps ss t := by
  cases fuel with
  | zero => rfl
  | succ fuel => rw [tagTail?, tagTail?, trimStart_trimStart]

private theorem IsTagTail.head_of_glued {ps : List Property} {ss : List String} {a : List Char}
    (h : IsTagTail true ps ss a) (closed : Bool) (rest : List Char) :
    ∀ c ∈ (a ++ (tagEnd closed ++ rest)).head?, isNameChar c = false := by
  have hpad {p : List Char} (hp : Blank p) (hne : p ≠ []) (t : List Char) :
      ∀ c ∈ (p ++ t).head?, isNameChar c = false := by
    cases p with
    | nil => exact absurd rfl hne
    | cons d p =>
      intro c hc
      simp only [List.cons_append, List.head?_cons, Option.mem_some_iff] at hc
      exact hc ▸ not_isNameChar_of_isBlank (hp d (by simp))
  cases h with
  | done hp =>
    cases a with
    | nil => cases closed <;> simp [tagEnd, isNameChar]
    | cons d p => exact hpad hp (by simp) _
  | flag hp hg hk ht =>
    rw [List.append_assoc]
    exact hpad hp (hg rfl) _
  | value hp hg hk hq hr hv ht =>
    rw [List.append_assoc]
    exact hpad hp (hg rfl) _
  | @spread _ _ _ p q r s code t hp hq hr hs hc htr hne hd ht =>
    rw [List.append_assoc]
    cases p with
    | nil => simp [isNameChar]
    | cons d p => exact hpad hp (by simp) _

private theorem IsTagTail.trimStart_ne_equals {glued : Bool} {ps : List Property}
    {ss : List String} {a : List Char} (h : IsTagTail glued ps ss a) (closed : Bool)
    (rest : List Char) : (trimStart (a ++ (tagEnd closed ++ rest))).head? ≠ some '=' := by
  have hname {p key : List Char} (hp : Blank p) (hk : IsName key) (t : List Char) :
      (trimStart (p ++ (key ++ t))).head? ≠ some '=' := by
    obtain ⟨c, key', rfl, hc⟩ := hk.cons
    rw [List.cons_append, trimStart_append_cons hp (not_blank_of_isNameChar hc)]
    simpa using ne_of_isNameChar hc (by decide)
  cases h with
  | done hp =>
    cases closed with
    | true => simp [tagEnd, trimStart_append_cons hp (c := '/') (by decide)]
    | false => simp [tagEnd, trimStart_append_cons hp (c := '>') (by decide)]
  | flag hp hg hk ht =>
    rw [List.append_assoc, List.append_assoc]
    exact hname hp hk _
  | value hp hg hk hq hr hv ht =>
    rw [List.append_assoc, List.append_assoc]
    exact hname hp hk _
  | spread hp hq hr hs hc htr hne hd ht =>
    rw [List.append_assoc, List.cons_append, trimStart_append_cons hp (by decide)]
    simp

/-- A name in a tag: what follows decides whether it has a value. -/
theorem tagTail?_key {p key rest : List Char} (hp : Blank p) (hne : key ≠ [])
    (hk : ∀ c ∈ key, isNameChar c = true) (hr : ∀ c ∈ rest.head?, isNameChar c = false)
    (name : String) (fuel : Nat) (ps : List Property) (ss : List String) :
    tagTail? name (fuel + 1) ps ss (p ++ (key ++ rest)) =
      match trimStart rest with
      | '=' :: rest => do
        let (value, rest) ← propValue? (trimStart rest)
        tagTail? name fuel (⟨String.ofList key, value⟩ :: ps) ss rest
      | _ => tagTail? name fuel (⟨String.ofList key, .flag⟩ :: ps) ss (trimStart rest) := by
  obtain ⟨htake, hdrop⟩ := span_name hk hr
  obtain ⟨c, key', hcons⟩ := List.exists_cons_of_ne_nil hne
  have hc : isNameChar c = true := hk c (by simp [hcons])
  have htrim : trimStart (p ++ (key ++ rest)) = key ++ rest := by
    rw [hcons]
    exact trimStart_append_cons hp (not_blank_of_isNameChar hc) _
  have hhead {d : Char} (hd : isNameChar d = false) (n : List Char) :
      ¬ startsWith (key ++ rest) (d :: n) = true := by
    rw [startsWith_of_head]
    · simp
    · rw [hcons]
      simpa using ne_of_isNameChar hc hd
  have hempty : ¬ key.isEmpty = true := by simpa using hne
  simp only [tagTail?, htrim, htake, hdrop]
  refine (if_neg (hhead (by decide) _)).trans ?_
  refine (if_neg (hhead (by decide) _)).trans ?_
  refine (if_neg (hhead (by decide) _)).trans ?_
  exact if_neg hempty

/-- The parts of a tag are read one after the other and come in the order they were written. -/
theorem tagTail?_of_isTagTail {glued closed : Bool} {ps : List Property} {ss : List String}
    {a : List Char} (h : IsTagTail glued ps ss a) (name : String) {fuel : Nat}
    (hf : a.length < fuel) (ps' : List Property) (ss' : List String) (rest : List Char) :
    tagTail? name fuel ps' ss' (a ++ (tagEnd closed ++ rest)) =
      some (⟨name, ps'.reverse ++ ps, ss'.reverse ++ ss, closed⟩, rest) := by
  induction h generalizing fuel ps' ss' with
  | done hp =>
    obtain ⟨fuel, rfl⟩ := Nat.exists_eq_succ_of_ne_zero (Nat.ne_zero_of_lt hf)
    rw [tagTail?]
    cases closed with
    | true => simp [tagEnd, trimStart_append_cons hp (c := '/') (by decide), startsWith]
    | false => simp [tagEnd, trimStart_append_cons hp (c := '>') (by decide), startsWith]
  | @flag glued ps ss p key t hp hg hk ht ih =>
    obtain ⟨fuel, rfl⟩ := Nat.exists_eq_succ_of_ne_zero (Nat.ne_zero_of_lt hf)
    have hlen : t.length < fuel := by
      have := List.length_pos_iff.2 hk.ne_nil
      simp only [List.length_append] at hf
      omega
    have hne := ht.trimStart_ne_equals closed rest
    have hnext := ih hlen (⟨String.ofList key, .flag⟩ :: ps') ss'
    rw [List.append_assoc, List.append_assoc, tagTail?_key hp hk.ne_nil
      (fun c hc => (hk.chars c hc).1) (ht.head_of_glued closed rest)]
    split
    · rename_i he
      rw [he] at hne
      exact absurd rfl hne
    · rw [tagTail?_trimStart, hnext]
      simp
  | @value glued ps ss v p key q r s t hp hg hk hq hr hv ht ih =>
    obtain ⟨fuel, rfl⟩ := Nat.exists_eq_succ_of_ne_zero (Nat.ne_zero_of_lt hf)
    have hlen : t.length < fuel := by
      simp only [List.length_append, List.length_cons] at hf
      omega
    have hnext := ih hlen (⟨String.ofList key, v⟩ :: ps') ss'
    have hhead : ∀ c ∈ (q ++ '=' :: (r ++ (s ++ (t ++ (tagEnd closed ++ rest))))).head?,
        isNameChar c = false := by
      cases q with
      | nil => simp [isNameChar]
      | cons d q => simpa using not_isNameChar_of_isBlank (hq d (by simp))
    have hvalue : trimStart (r ++ (s ++ (t ++ (tagEnd closed ++ rest)))) =
        s ++ (t ++ (tagEnd closed ++ rest)) := by
      cases hv with
      | @quoted q' _ hq' _ _ =>
        exact trimStart_append_cons hr (by rcases hq' with rfl | rfl <;> decide) _
      | braces _ => exact trimStart_append_cons hr (by decide) _
    simp only [List.append_assoc, List.cons_append]
    rw [tagTail?_key hp hk.ne_nil (fun c hc => (hk.chars c hc).1) hhead, trimStart_append_cons hq (by decide)]
    simp [hvalue, propValue?_of_isPropText hv, hnext]
  | @spread glued ps ss p q r s code t hp hq hr hs hc htr hne hd ht ih =>
    obtain ⟨fuel, rfl⟩ := Nat.exists_eq_succ_of_ne_zero (Nat.ne_zero_of_lt hf)
    have hlen : t.length < fuel := by
      simp only [List.length_append, List.length_cons] at hf
      omega
    have hinner : Sealed [] (q ++ ("...".toList ++ (r ++ (code ++ s)))) := by
      have hblank {p : List Char} (hp : Blank p) : Sealed [] p := sealed_of_blank hp (by simp)
      have hdots : Sealed [] "...".toList := sealed_of_ordinary (by decide)
      exact (hblank hq).append (hdots.append ((hblank hr).append (hc.append (hblank hs))))
    have hnext := ih hlen ps' (String.ofList code :: ss')
    rw [List.append_assoc, List.cons_append, List.append_assoc, List.cons_append, tagTail?]
    simp only [trimStart_append_cons hp (c := '\x7b') (by decide), braces?_group hinner]
    rw [if_neg (by simp [startsWith]), if_neg (by simp [startsWith]), if_pos (by simp [startsWith]),
      Option.bind_eq_bind, Option.bind_some, dropRepeated_spread hq hr htr hne hd hs, hnext]
    simp

/-- Text of an opening tag. That of a fragment has nothing in it. -/
inductive IsTag : Bool → OpeningTag → List Char → Prop where
  | named {closed : Bool} {ps : List Property} {ss : List String} {name a : List Char} :
      IsName name → (∀ c ∈ name.head?, c.isAlpha = true) → IsTagTail true ps ss a →
      IsTag closed ⟨String.ofList name, ps, ss, closed⟩ ('<' :: (name ++ (a ++ tagEnd closed)))
  | fragment : IsTag false ⟨"", [], [], false⟩ ['<', '>']

/-- A tag of the grammar is read as the tag it spells. -/
theorem openingTag?_of_isTag {closed : Bool} {tag : OpeningTag} {t : List Char}
    (h : IsTag closed tag t) (rest : List Char) : openingTag? (t ++ rest) = some (tag, rest) := by
  cases h with
  | @named _ ps ss name a hn _ ha =>
    obtain ⟨htake, hdrop⟩ := span_name (fun c hc => (hn.chars c hc).1) (ha.head_of_glued closed rest)
    have hf : a.length < (name ++ (a ++ (tagEnd closed ++ rest))).length + 1 := by simp; omega
    have htail : tagTail? _ _ _ _ (a ++ (tagEnd closed ++ rest)) = _ :=
      tagTail?_of_isTagTail ha (String.ofList name) hf [] [] rest
    simp only [List.cons_append, List.append_assoc, openingTag?, htake, hdrop]
    simpa using htail
  | fragment =>
    simp [openingTag?, tagTail?, trimStart, isNameChar, startsWith, isBlank]

end JsxToJinja.Markup
