import JsxToJinja.Proofs.Code.Names
import JsxToJinja.Proofs.Text.Patterns

/-! Runs of patterns over names and blanks, and what a successful run says of the captures that were
made on the way. -/
namespace JsxToJinja.Text
open JsxToJinja.Code

/-! ### Words and blanks -/

/-- Every range of word characters lies between two runs of blanks. -/
private theorem wordRanges_apart : ∀ r ∈ wordRanges,
    160 < r.1 ∧ r.2 < 5760 ∨ 5760 < r.1 ∧ r.2 < 8192 ∨ 8202 < r.1 ∧ r.2 < 8232 ∨
      8239 < r.1 ∧ r.2 < 8287 ∨ 8287 < r.1 ∧ r.2 < 12288 ∨ 12288 < r.1 := by
  decide +kernel

theorem not_isWord_of_isBlank {c : Char} (h : isBlank c = true) : isWord c = false := by
  rw [isWord]
  split
  · rw [← Bool.not_eq_true]
    intro hword
    have hname : isIdentifierChar c = true := by rw [isIdentifierChar, hword, Bool.true_or]
    rw [not_blank_of_isIdentifierChar hname] at h
    cases h
  · simp only [isBlank, Bool.or_eq_true, Bool.and_eq_true, decide_eq_true_eq, beq_iff_eq] at h
    rw [inRanges, List.any_eq_false]
    intro r hr
    have hapart := wordRanges_apart r hr
    simp only [Bool.and_eq_true, decide_eq_true_eq]
    omega

theorem isWord_of_isIdentifierChar {c : Char} (h : isIdentifierChar c = true) :
    (isWord c || c == '$') = true := by
  have hlt : c.toNat < 128 := by
    have := toNat_of_isIdentifierChar h
    omega
  simp only [isIdentifierChar, Bool.or_eq_true] at h
  simp only [isWord, if_pos hlt, Bool.or_eq_true]
  exact h

theorem ne_of_isBlank {c d : Char} (hc : isBlank c = true) (hd : isBlank d = false) : c ≠ d := by
  rintro rfl
  simp [hc] at hd

theorem notMem_of_blank {g : List Char} (hg : Blank g) {d : Char} (hd : isBlank d = false) :
    d ∉ g := fun hmem => absurd rfl (ne_of_isBlank (hg d hmem) hd)

/-! ### Runs -/

theorem run_blanks {g rest : List Char} (hg : Blank g) (hr : ∀ c ∈ rest.head?, isBlank c = false)
    {least i : Nat} (hl : least ≤ g.length) {before : Option Char} {caps : Captures}
    {next : Cursor → Captures → Option α} {found : α}
    (hn : next ⟨g.getLast?.or before, i + g.length, rest⟩ caps = some found) :
    (Pattern.many least isBlank).run ⟨before, i, g ++ rest⟩ caps next = some found :=
  greedy_eq_some hg hr hl hn

theorem run_one_cons (accepts : Char → Bool) (before : Option Char) (i : Nat) (c : Char)
    (t : List Char) (caps : Captures) (next : Cursor → Captures → Option α) :
    (Pattern.one accepts).run ⟨before, i, c :: t⟩ caps next =
      if accepts c = true then next ⟨some c, i + 1, t⟩ caps else none := rfl

/-- A letter, `_` or `$`, then word characters and `$`. -/
def isName : List Char → Bool
  | [] => false
  | c :: t => isIdentifierStart c && t.all fun c => isWord c || c == '$'

theorem isName_of_isIdentifier {t : List Char} (h : isIdentifier t = true) : isName t = true := by
  cases t with
  | nil => cases h
  | cons c t =>
    simp only [isIdentifier, Bool.and_eq_true, List.all_eq_true] at h
    simp only [isName, Bool.and_eq_true, List.all_eq_true]
    exact ⟨h.1, fun d hd => isWord_of_isIdentifierChar (h.2 d hd)⟩

/-- An identifier is taken up to what goes on no name. -/
theorem run_identifier {name rest : List Char} (hname : isName name = true)
    (hr : ∀ c ∈ rest.head?, (isWord c || c == '$') = false) {i : Nat} {before : Option Char}
    {caps : Captures} {next : Cursor → Captures → Option α} {found : α}
    (hn : next ⟨name.getLast?, i + name.length, rest⟩ caps = some found) :
    Pattern.identifier.run ⟨before, i, name ++ rest⟩ caps next = some found := by
  cases name with
  | nil => cases hname
  | cons c t =>
    have hall := hname
    rw [isName, Bool.and_eq_true, List.all_eq_true] at hall
    have hrun : Pattern.identifier.run ⟨before, i, c :: t ++ rest⟩ caps next =
        if isIdentifierStart c = true then
          greedy (fun c => isWord c || c == '$') (next · caps) 0 (some c) (i + 1) (t ++ rest)
        else none := rfl
    rw [hrun, if_pos hall.1]
    refine greedy_eq_some hall.2 hr (Nat.zero_le _) ?_
    rw [← Option.or_none (o := (c :: t).getLast?), getLast?_cons_or, List.length_cons, ← Nat.add_assoc,
      Nat.add_right_comm] at hn
    exact hn

/-- Behind a name stand blanks and a sign. -/
theorem not_word_after {g : List Char} (hg : Blank g) {d : Char}
    (hd : (isWord d || d == '$') = false) (r : List Char) :
    ∀ c ∈ (g ++ d :: r).head?, (isWord c || c == '$') = false := by
  intro c hc
  cases g with
  | nil =>
    obtain rfl : d = c := by simpa using hc
    exact hd
  | cons b g =>
    obtain rfl : b = c := by simpa using hc
    have hb : isBlank b = true := hg b (by simp)
    have hne : b ≠ '$' := by
      rintro rfl
      exact absurd hb (by decide)
    simp [not_isWord_of_isBlank hb, hne]

theorem opt_isSome {p : Pattern} {c : Cursor} {caps : Captures}
    {next : Cursor → Captures → Option α} (h : (next c caps).isSome = true) :
    ((Pattern.opt p).run c caps next).isSome = true := by
  rw [Pattern.run]
  split
  · rfl
  · exact h

theorem many_isSome {accepts : Char → Bool} {c : Cursor} {caps : Captures}
    {next : Cursor → Captures → Option α} (h : (next c caps).isSome = true) :
    ((Pattern.many 0 accepts).run c caps next).isSome = true :=
  greedy_isSome.2 ⟨[], c.rest, rfl, by simp, Nat.zero_le _, h⟩

/-- The shortest run is tried first. -/
theorem reluctant_eq_some {accepts : Char → Bool} {next : Cursor → Option α} {least i : Nat}
    {before : Option Char} {w rest : List Char} {found : α} (hw : ∀ c ∈ w, accepts c = true)
    (hl : least ≤ w.length)
    (hnone : ∀ before i v, v ≠ [] → v <:+ w → next ⟨before, i, v ++ rest⟩ = none)
    (hn : next ⟨w.getLast?.or before, i + w.length, rest⟩ = some found) :
    reluctant accepts next least before i (w ++ rest) = some found := by
  induction w generalizing least before i with
  | nil =>
    obtain rfl : least = 0 := Nat.le_zero.1 hl
    cases rest with
    | nil => exact hn
    | cons c rest =>
      have hfound : next ⟨before, i, c :: rest⟩ = some found := hn
      simp [reluctant, hfound]
  | cons c w ih =>
    rw [getLast?_cons_or, List.length_cons, ← Nat.add_assoc, Nat.add_right_comm] at hn
    rw [List.length_cons] at hl
    have hle : least - 1 ≤ w.length := by omega
    have hrest := ih (fun d hd => hw d (by simp [hd])) hle
      (fun before i v hv hs => hnone before i v hv (hs.trans (List.suffix_cons c w))) hn
    have hhere : next ⟨before, i, c :: (w ++ rest)⟩ = none :=
      hnone before i (c :: w) (by simp) List.suffix_rfl
    rw [List.cons_append, reluctant, hhere, if_pos (hw c (by simp))]
    simp [hrest]

/-! ### What a run passes over -/

namespace Pattern

/-- In front of the rest, the pattern takes just the text, and adds captures for the place where the
text starts. -/
def Passes (p : Pattern) (w rest : List Char) (add : Nat → Captures → Captures) : Prop :=
  ∀ (before : Option Char) (i : Nat) (caps : Captures) (next : Cursor → Captures → Option Match)
    (found : Match), next ⟨w.getLast?.or before, i + w.length, rest⟩ (add i caps) = some found →
      p.run ⟨before, i, w ++ rest⟩ caps next = some found

abbrev nothing (_ : Nat) (caps : Captures) : Captures := caps

theorem passes_append {p q : Pattern} {w w' rest : List Char} {add add' : Nat → Captures → Captures}
    (hp : p.Passes w (w' ++ rest) add) (hq : q.Passes w' rest add') :
    (p ++ q).Passes (w ++ w') rest fun i caps => add' (i + w.length) (add i caps) := by
  intro before i caps next found hn
  rw [← getLast?_append_or, List.length_append, ← Nat.add_assoc] at hn
  rw [List.append_assoc]
  exact hp before i caps _ found (hq _ _ _ next found hn)

theorem passes_one {accepts : Char → Bool} {c : Char} (hc : accepts c = true) (rest : List Char) :
    (one accepts).Passes [c] rest nothing := by
  intro before i caps next found hn
  rw [List.singleton_append, run_one_cons, if_pos hc]
  exact hn

theorem passes_many {accepts : Char → Bool} {least : Nat} {w rest : List Char}
    (hw : ∀ c ∈ w, accepts c = true) (hr : ∀ c ∈ rest.head?, accepts c = false)
    (hl : least ≤ w.length) : (many least accepts).Passes w rest nothing :=
  fun _ _ _ _ _ hn => greedy_eq_some hw hr hl hn

theorem passes_lit (s : String) (rest : List Char) : (lit s).Passes s.toList rest nothing := by
  intro before i caps next found hn
  rw [run_lit, if_pos (startsWith_append_self s.toList rest), List.drop_left]
  exact hn

/-- A name is taken whole and captured by its group. -/
theorem passes_name {name rest : List Char} (n : Nat) (hname : isName name = true)
    (hr : ∀ c ∈ rest.head?, (isWord c || c == '$') = false) :
    (group n identifier).Passes name rest fun i caps => (n, i, i + name.length) :: caps := by
  intro before i caps next found hn
  have hrun : (group n identifier).run ⟨before, i, name ++ rest⟩ caps next =
      identifier.run ⟨before, i, name ++ rest⟩ caps fun q caps => next q ((n, i, q.index) :: caps) := rfl
  rw [hrun]
  refine run_identifier hname hr ?_
  have hlast : name.getLast?.or before = name.getLast? := by
    cases name with
    | nil => cases hname
    | cons c name => simp [List.getLast?_cons]
  rwa [hlast] at hn

theorem passes_opt {p : Pattern} {w rest : List Char} {add : Nat → Captures → Captures}
    (hp : p.Passes w rest add) : (opt p).Passes w rest add := by
  intro before i caps next found hn
  rw [run, hp before i caps next found hn]

/-- A word that does not stand there is left out. -/
theorem passes_opt_lit (s : String) {rest : List Char} (q : Pattern)
    (hr : startsWith rest s.toList = false) : (opt (lit s ++ q)).Passes [] rest nothing := by
  intro before i caps next found hn
  have hnone : (lit s ++ q).run ⟨before, i, rest⟩ caps next = none := by
    have hlit := run_lit s ⟨before, i, rest⟩ caps fun c caps => q.run c caps next
    rwa [if_neg (ne_true_of_eq_false hr)] at hlit
  rw [List.nil_append, run, hnone]
  exact hn

end Pattern

/-! ### What a run leads to -/

/-- A greedy run takes accepted characters in front of a match of what follows. -/
theorem exists_of_greedy {accepts : Char → Bool} {next : Cursor → Option α} {least i : Nat}
    {before : Option Char} {t : List Char} {found : α}
    (h : greedy accepts next least before i t = some found) :
    ∃ w rest, t = w ++ rest ∧ (∀ c ∈ w, accepts c = true) ∧
      next ⟨w.getLast?.or before, i + w.length, rest⟩ = some found := by
  induction t generalizing least before i with
  | nil =>
    cases least with
    | zero => exact ⟨[], [], rfl, by simp, h⟩
    | succ least => cases h
  | cons c t ih =>
    rw [greedy] at h
    split at h
    · rename_i longer hlonger
      cases h
      split at hlonger
      · rename_i hc
        obtain ⟨w, rest, rfl, hw, hn⟩ := ih hlonger
        refine ⟨c :: w, rest, rfl, List.forall_mem_cons.2 ⟨hc, hw⟩, ?_⟩
        rw [getLast?_cons_or, List.length_cons, ← Nat.add_assoc, Nat.add_right_comm]
        exact hn
      · cases hlonger
    · split at h
      · exact ⟨[], c :: t, rfl, by simp, h⟩
      · cases h

/-- A reluctant run takes accepted characters in front of a match of what follows. -/
theorem exists_of_reluctant {accepts : Char → Bool} {next : Cursor → Option α} {least i : Nat}
    {before : Option Char} {t : List Char} {found : α}
    (h : reluctant accepts next least before i t = some found) :
    ∃ w rest, t = w ++ rest ∧ (∀ c ∈ w, accepts c = true) ∧
      next ⟨w.getLast?.or before, i + w.length, rest⟩ = some found := by
  induction t generalizing least before i with
  | nil =>
    cases least with
    | zero => exact ⟨[], [], rfl, by simp, h⟩
    | succ least => cases h
  | cons c t ih =>
    rw [reluctant] at h
    split at h
    · rename_i shorter hshorter
      cases h
      split at hshorter
      · exact ⟨[], c :: t, rfl, by simp, hshorter⟩
      · cases hshorter
    · split at h
      · rename_i hc
        obtain ⟨w, rest, rfl, hw, hn⟩ := ih h
        refine ⟨c :: w, rest, rfl, List.forall_mem_cons.2 ⟨hc, hw⟩, ?_⟩
        rw [getLast?_cons_or, List.length_cons, ← Nat.add_assoc, Nat.add_right_comm]
        exact hn
      · cases h

def Cursor.In (t : List Char) (place : Cursor) : Prop :=
  ∃ u, t = u ++ place.rest ∧ u.length = place.index

theorem Cursor.In.move {t w rest : List Char} {before after : Option Char} {i : Nat}
    (h : Cursor.In t ⟨before, i, w ++ rest⟩) : Cursor.In t ⟨after, i + w.length, rest⟩ := by
  obtain ⟨u, rfl, rfl⟩ := h
  exact ⟨u ++ w, by simp, by simp⟩

theorem Cursor.In.slice_eq {t w rest : List Char} {before : Option Char} {i : Nat}
    (h : Cursor.In t ⟨before, i, w ++ rest⟩) : slice t i (i + w.length) = w := by
  obtain ⟨u, rfl, rfl⟩ := h
  exact slice_append_left u w rest

namespace Pattern

/-- A run of the pattern stays in the text and takes captures of one kind to captures of another. -/
def Leads (p : Pattern) (t : List Char) (K K' : Captures → Prop) : Prop :=
  ∀ (place : Cursor) (caps : Captures) (next : Cursor → Captures → Option Match) (found : Match),
    place.In t → K caps → p.run place caps next = some found →
      ∃ q caps', q.In t ∧ K' caps' ∧ next q caps' = some found

variable {t : List Char} {K K' K'' : Captures → Prop} {p q : Pattern}

theorem leads_one (accepts : Char → Bool) : (one accepts).Leads t K K := by
  rintro ⟨before, i, rest⟩ caps next found hin hK h
  cases rest with
  | nil => cases h
  | cons c rest =>
    rw [run_one_cons] at h
    split at h
    · exact ⟨_, caps, hin.move (w := [c]), hK, h⟩
    · cases h

theorem leads_many (least : Nat) (accepts : Char → Bool) : (many least accepts).Leads t K K := by
  rintro ⟨before, i, rest⟩ caps next found hin hK h
  obtain ⟨w, rest, rfl, -, hn⟩ := exists_of_greedy h
  exact ⟨_, caps, hin.move, hK, hn⟩

theorem leads_few (least : Nat) (accepts : Char → Bool) : (few least accepts).Leads t K K := by
  rintro ⟨before, i, rest⟩ caps next found hin hK h
  obtain ⟨w, rest, rfl, -, hn⟩ := exists_of_reluctant h
  exact ⟨_, caps, hin.move, hK, hn⟩

theorem leads_wordEdge : wordEdge.Leads t K K := by
  rintro place caps next found hin hK h
  rw [run] at h
  split at h
  · exact ⟨place, caps, hin, hK, h⟩
  · cases h

theorem leads_append (hp : p.Leads t K K') (hq : q.Leads t K' K'') : (p ++ q).Leads t K K'' := by
  intro place caps next found hin hK h
  obtain ⟨place', caps', hin', hK', h'⟩ := hp place caps _ found hin hK h
  exact hq place' caps' next found hin' hK' h'

theorem leads_lit (s : String) : (lit s).Leads t K K := by
  intro place caps next found hin hK h
  rw [run_lit] at h
  split at h
  · rename_i hs
    obtain ⟨before, i, rest⟩ := place
    obtain ⟨r, rfl⟩ := List.isPrefixOf_iff_prefix.1 hs
    rw [List.drop_left] at h
    exact ⟨_, caps, hin.move, hK, h⟩
  · cases h

theorem leads_opt (hp : p.Leads t K K) : (opt p).Leads t K K := by
  intro place caps next found hin hK h
  rw [run] at h
  split at h
  · rename_i some_found hsome
    cases h
    exact hp place caps next found hin hK hsome
  · exact ⟨place, caps, hin, hK, h⟩

theorem leads_start : start.Leads t K K := by
  rintro place caps next found hin hK h
  rw [run] at h
  split at h
  · exact ⟨place, caps, hin, hK, h⟩
  · cases h

theorem leads_alt (hp : p.Leads t K K') (hq : q.Leads t K K') : (alt p q).Leads t K K' := by
  intro place caps next found hin hK h
  rw [run] at h
  split at h
  · rename_i some_found hsome
    cases h
    exact hp place caps next found hin hK hsome
  · exact hq place caps next found hin hK h

/-- A group adds its own span. -/
theorem leads_group {n : Nat} (hp : p.Leads t K K')
    (hadd : ∀ caps a b, K' caps → K'' ((n, a, b) :: caps)) : (group n p).Leads t K K'' := by
  intro place caps next found hin hK h
  obtain ⟨place', caps', hin', hK', h'⟩ := hp place caps _ found hin hK h
  exact ⟨place', _, hin', hadd caps' _ _ hK', h'⟩

def Names (t : List Char) (n : Nat) (caps : Captures) : Prop :=
  ∃ a b, caps.find? (·.1 == n) = some (n, a, b) ∧ isName (slice t a b) = true

/-- A group of characters of one kind. -/
theorem leads_group_many {n least : Nat} {accepts : Char → Bool}
    (hadd : ∀ caps a b, K caps → (∀ c ∈ slice t a b, accepts c = true) → K' ((n, a, b) :: caps)) :
    (group n (many least accepts)).Leads t K K' := by
  rintro ⟨before, i, rest⟩ caps next found hin hK h
  obtain ⟨w, rest, rfl, hw, hn⟩ := exists_of_greedy h
  exact ⟨_, _, hin.move, hadd caps _ _ hK (by rwa [hin.slice_eq]), hn⟩

/-- A group that is a name. -/
theorem leads_group_identifier {n : Nat}
    (hadd : ∀ caps a b, K caps → isName (slice t a b) = true → K' ((n, a, b) :: caps)) :
    (group n identifier).Leads t K K' := by
  rintro ⟨before, i, rest⟩ caps next found hin hK h
  cases rest with
  | nil => cases h
  | cons c rest =>
    have hrun : (group n identifier).run ⟨before, i, c :: rest⟩ caps next =
        if isIdentifierStart c = true then
          greedy (fun c => isWord c || c == '$') (fun q => next q ((n, i, q.index) :: caps)) 0
            (some c) (i + 1) rest
        else none := rfl
    rw [hrun] at h
    split at h
    · rename_i hc
      obtain ⟨w, rest, rfl, hw, hn⟩ := exists_of_greedy h
      rw [Nat.add_right_comm, Nat.add_assoc, ← List.length_cons (a := c)] at hn
      have hslice : slice t i (i + (c :: w).length) = c :: w := @Cursor.In.slice_eq _ _ rest _ _ hin
      refine ⟨_, _, hin.move (w := c :: w), hadd caps _ _ hK ?_, hn⟩
      rw [hslice, isName, hc, Bool.true_and, List.all_eq_true]
      exact hw
    · cases h

theorem leads_name (n : Nat) : (group n identifier).Leads t (fun _ => True) (Names t n) :=
  leads_group_identifier fun _ a b _ hname => ⟨a, b, by simp, hname⟩

theorem Names.add {n m : Nat} (hm : m ≠ n) {caps : Captures} (a b : Nat) (h : Names t n caps) :
    Names t n ((m, a, b) :: caps) := by
  obtain ⟨a', b', hfind, hname⟩ := h
  exact ⟨a', b', by rw [List.find?_cons_of_neg (by simpa using hm), hfind], hname⟩

/-- Every match that is collected is a match at some place of the text. -/
theorem exists_of_mem_collect {resume i : Nat} {before : Option Char} {rest : List Char}
    {m : Match} (hin : Cursor.In t ⟨before, i, rest⟩) (h : m ∈ p.collect resume before i rest) :
    ∃ place : Cursor, place.In t ∧ p.matchAt? place = some m := by
  induction rest generalizing resume before i with
  | nil =>
    rw [collect] at h
    split at h
    · exact ⟨_, hin, Option.mem_toList.1 h⟩
    · cases h
  | cons c rest ih =>
    have hnext : Cursor.In t ⟨some c, i + 1, rest⟩ := hin.move (w := [c])
    rw [collect] at h
    split at h
    · split at h
      · rename_i m' hm
        rcases List.mem_cons.1 h with rfl | h
        · exact ⟨_, hin, hm⟩
        · exact ih hnext h
      · exact ih hnext h
    · exact ih hnext h

/-- What the captures of the leftmost match are. -/
theorem captures_of_find? (hp : p.Leads t K K') (hstart : K []) {m : Match}
    (h : p.find? t = some m) : K' m.captures := by
  have hplace {before : Option Char} {i : Nat} {rest : List Char}
      (hin : Cursor.In t ⟨before, i, rest⟩) (h : p.searchFrom before i rest = some m) :
      ∃ place : Cursor, place.In t ∧ p.matchAt? place = some m := by
    induction rest generalizing before i with
    | nil => exact ⟨_, hin, h⟩
    | cons c rest ih =>
      rw [searchFrom] at h
      split at h
      · rename_i hm
        cases h
        exact ⟨_, hin, hm⟩
      · exact ih (hin.move (w := [c])) h
  obtain ⟨place, hin, hm⟩ := hplace ⟨[], rfl, rfl⟩ h
  obtain ⟨q, caps, -, hK, hfound⟩ := hp place [] _ m hin hstart hm
  cases hfound
  exact hK

/-- The name that a match holds. -/
theorem isName_text_of_mem_findAll {n : Nat} (hp : p.Leads t (fun _ => True) (Names t n))
    {m : Match} (h : m ∈ p.findAll t) : isName (m.text t n) = true := by
  obtain ⟨place, hin, hm⟩ := exists_of_mem_collect ⟨[], rfl, rfl⟩ h
  obtain ⟨q, caps, -, ⟨a, b, hfind, hname⟩, hfound⟩ := hp place [] _ m hin trivial hm
  cases hfound
  rw [Match.text, Match.text?, Match.span?, hfind]
  exact hname

end Pattern

end JsxToJinja.Text
