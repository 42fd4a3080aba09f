import JsxToJinja.Proofs.Classes.SwitchClauses
import JsxToJinja.Proofs.Code.Expression
import JsxToJinja.Proofs.Component.Declarations
import JsxToJinja.Proofs.Content.Statements
import JsxToJinja.Proofs.Text.PatternRuns
import JsxToJinja.Proofs.Text.Patterns

/-! Texts of switch statements. The labels and assignments of a printed statement are found one after
the other, each where it stands. -/
namespace JsxToJinja.Switch
open JsxToJinja.Text JsxToJinja.Code

/-! ### Texts -/

/-- A text in quotes of its own, without escapes. -/
structure PlainText where
  quote : Char
  text : List Char
  isQuote : quote = '\x27' ∨ quote = '\x22'
  plain : ∀ c ∈ text, c ≠ quote ∧ c ≠ '\\'

/-- A number, spelled without a plus sign. -/
structure NumberText where
  text : List Char
  value : Number
  read : Number.parse? text = some value
  chars : ∀ c ∈ text, (isPathChar c || c == '-') = true

inductive CaseValue where
  | text (q : PlainText)
  | number (n : NumberText)

inductive WrittenLabel where
  | value (v : CaseValue)
  | default

inductive AssignedValue where
  | text (q : PlainText)
  | undefined

structure WrittenClause where
  labels : List WrittenLabel
  assigned : Option AssignedValue
  labelled : labels ≠ []

def PlainText.written (q : PlainText) : List Char := q.quote :: (q.text ++ [q.quote])

def CaseValue.written : CaseValue → List Char
  | text q => q.written
  | number n => n.text

def CaseValue.value : CaseValue → Json
  | text q => .str (String.ofList q.text)
  | number n => .num n.value

def WrittenLabel.label : WrittenLabel → Label
  | value v => .value v.value
  | default => .default

def AssignedValue.written : AssignedValue → List Char
  | text q => q.written
  | undefined => "undefined".toList

def AssignedValue.result : AssignedValue → String
  | text q => String.ofList q.text
  | undefined => "undefined"

def WrittenClause.clause (c : WrittenClause) : Clause :=
  ⟨c.labels.map (·.label), c.assigned.map (·.result)⟩

inductive LabelText : WrittenLabel → List Char → Prop where
  | value (v : CaseValue) {g h k : List Char} : Blank g → Blank h → h ≠ [] → Blank k →
      LabelText (.value v) (g ++ ("case".toList ++ h ++ v.written ++ k ++ ":".toList))
  | default {g k : List Char} : Blank g → Blank k →
      LabelText .default (g ++ ("default".toList ++ k ++ ":".toList))

inductive LabelsText : List WrittenLabel → List Char → Prop where
  | nil : LabelsText [] []
  | cons {l : WrittenLabel} {ls : List WrittenLabel} {t r : List Char} :
      LabelText l t → LabelsText ls r → LabelsText (l :: ls) (t ++ r)

inductive AssignedText (target : String) : Option AssignedValue → List Char → Prop where
  | none : AssignedText target none []
  | some (a : AssignedValue) {g h k e : List Char} : Blank g → Blank h → Blank k → Blank e →
      AssignedText target (some a)
        (g ++ ((target.toList ++ h ++ "=".toList ++ k ++ a.written) ++ (e ++ ";".toList)))

/-- Clauses, each up to its `break`, and the blanks behind the last. -/
inductive ClausesText (target : String) : List WrittenClause → List Char → Prop where
  | nil {g : List Char} : Blank g → ClausesText target [] g
  | cons {c : WrittenClause} {cs : List WrittenClause} {l a g e r : List Char} :
      LabelsText c.labels l → AssignedText target c.assigned a → Blank g → Blank e →
      ClausesText target cs r →
      ClausesText target (c :: cs) (l ++ (a ++ (g ++ ("break".toList ++ e ++ (";".toList ++ r)))))

/-! ### Patterns -/

variable {target rest : List Char}

theorem passes_alt_left {p q : Pattern} {w : List Char} {add : Nat → Captures → Captures}
    (hp : p.Passes w rest add) : (Pattern.alt p q).Passes w rest add := by
  intro before i caps next found hn
  rw [Pattern.run, hp before i caps next found hn]

/-- The first alternative does not match whatever comes next. -/
theorem passes_alt_right {p q : Pattern} {w : List Char} {add : Nat → Captures → Captures}
    (hp : ∀ (before : Option Char) (i : Nat) (caps : Captures)
      (next : Cursor → Captures → Option Match), p.run ⟨before, i, w ++ rest⟩ caps next = none)
    (hq : q.Passes w rest add) : (Pattern.alt p q).Passes w rest add := by
  intro before i caps next found hn
  rw [Pattern.run, hp before i caps next]
  exact hq before i caps next found hn

theorem passes_group {p : Pattern} {w : List Char} (n : Nat)
    (hp : p.Passes w rest Pattern.nothing) :
    (Pattern.group n p).Passes w rest fun i caps => (n, i, i + w.length) :: caps := by
  intro before i caps next found hn
  exact hp before i caps (fun q caps => next q ((n, i, q.index) :: caps)) found hn

theorem isPathChar_false : ∀ c ∈ ['\x27', '\x22', '\x60', ':', '=', ';', ')', '('],
    isPathChar c = false ∧ c ≠ '-' := by decide

theorem isBlank_of_pathChar {c : Char} (h : (isPathChar c || c == '-') = true) : isBlank c = false := by
  rw [← Bool.not_eq_true]
  intro hb
  have hword := not_isWord_of_isBlank hb
  simp only [isPathChar, hword, Bool.false_or, Bool.or_eq_true, beq_iff_eq] at h
  rcases h with (rfl | rfl) | rfl <;> exact absurd hb (by decide)

def quoted (q : Char) : Pattern :=
  .one (· == q) ++ .many 0 (· != q) ++ .one (· == q)

theorem passes_quoted {q : Char} {t : List Char} (ht : ∀ c ∈ t, c ≠ q) :
    (quoted q).Passes (q :: (t ++ [q])) rest Pattern.nothing := by
  have hquote (rest : List Char) : (Pattern.one (· == q)).Passes [q] rest Pattern.nothing :=
    Pattern.passes_one (by simp) rest
  have hmany : (Pattern.many 0 (· != q)).Passes t ([q] ++ rest) Pattern.nothing :=
    Pattern.passes_many (fun c hc => by simpa using ht c hc) (by simp) (Nat.zero_le _)
  exact Pattern.passes_append (Pattern.passes_append (hquote _) hmany) (hquote rest)

theorem run_quoted_none {q : Char} {t : List Char} (ht : ∀ c ∈ t.head?, c ≠ q) (before : Option Char)
    (i : Nat) (caps : Captures) (next : Cursor → Captures → Option Match) :
    (quoted q).run ⟨before, i, t⟩ caps next = none := by
  cases t with
  | nil => rfl
  | cons c t =>
    have hrun : (quoted q).run ⟨before, i, c :: t⟩ caps next =
        if (c == q) = true then _ else none := rfl
    rw [hrun, if_neg (by simpa using ht c rfl)]

theorem caseValue_eq : caseValue = .alt (quoted '\x27') (.alt (quoted '\x22')
    (.many 1 fun c => isPathChar c || c == '-')) := rfl

/-- A quoted text, or a run of the characters of names and numbers that ends there. -/
theorem passes_plainText (q : PlainText) : caseValue.Passes q.written rest Pattern.nothing := by
  obtain ⟨quote, text, hquote, hplain⟩ := q
  have hpass : (quoted quote).Passes (quote :: (text ++ [quote])) rest Pattern.nothing :=
    passes_quoted fun c hc => (hplain c hc).1
  rw [caseValue_eq]
  rcases hquote with rfl | rfl
  · exact passes_alt_left hpass
  · exact passes_alt_right (run_quoted_none (by simp [PlainText.written])) (passes_alt_left hpass)

/-- A run of characters of words is read as one label, up to what goes on none. -/
theorem passes_word {t : List Char} (hne : t ≠ [])
    (ht : ∀ c ∈ t, (isPathChar c || c == '-') = true)
    (hr : ∀ c ∈ rest.head?, (isPathChar c || c == '-') = false) :
    caseValue.Passes t rest Pattern.nothing := by
  have hquote {q : Char} (hq : q ∈ ['\x27', '\x22', '\x60', ':', '=', ';', ')', '(']) :
      ∀ c ∈ (t ++ rest).head?, c ≠ q := by
    obtain ⟨d, t, rfl⟩ := List.exists_cons_of_ne_nil hne
    rintro c hc rfl
    rw [List.cons_append, List.head?_cons, Option.mem_some_iff] at hc
    obtain rfl := hc
    obtain ⟨hpath, hminus⟩ := isPathChar_false _ hq
    have := ht d List.mem_cons_self
    simp [hpath, hminus] at this
  rw [caseValue_eq]
  refine passes_alt_right (run_quoted_none (hquote (by simp)))
    (passes_alt_right (run_quoted_none (hquote (by simp))) ?_)
  exact Pattern.passes_many ht hr (List.length_pos_iff.2 hne)

theorem NumberText.text_ne_nil (n : NumberText) : n.text ≠ [] := by
  intro h
  have hread := n.read
  rw [h] at hread
  cases hread

theorem passes_caseValue (v : CaseValue)
    (hr : ∀ c ∈ rest.head?, (isPathChar c || c == '-') = false) :
    caseValue.Passes v.written rest Pattern.nothing := by
  cases v with
  | text q => exact passes_plainText q
  | number n => exact passes_word n.text_ne_nil n.chars hr

theorem passes_assignedValue (a : AssignedValue)
    (hr : ∀ c ∈ rest.head?, (isPathChar c || c == '-') = false) :
    caseValue.Passes a.written rest Pattern.nothing := by
  cases a with
  | text q => exact passes_plainText q
  | undefined => exact passes_word (by decide) (by decide) hr

/-- Blanks, then a sign. -/
theorem not_pathChar_after {g : List Char} (hg : Blank g) {d : Char}
    (hd : d ∈ ['\x27', '\x22', '\x60', ':', '=', ';', ')', '(']) (r : List Char) :
    ∀ c ∈ (g ++ d :: r).head?, (isPathChar c || c == '-') = false := by
  intro c hc
  cases g with
  | nil =>
    obtain rfl : d = c := by simpa using hc
    obtain ⟨hpath, hminus⟩ := isPathChar_false d hd
    simp [hpath, hminus]
  | cons b g =>
    obtain rfl : b = c := by simpa using hc
    rw [← Bool.not_eq_true]
    intro hpath
    have := isBlank_of_pathChar hpath
    simp [hg b List.mem_cons_self] at this

/-! ### Landmarks -/

def caseLabel : Pattern :=
  .lit "case" ++ .someBlanks ++ .group 1 caseValue ++ .blanks ++ .lit ":"

def defaultLabel : Pattern := .lit "default" ++ .blanks ++ .lit ":"

def assignmentTo (target : String) : Pattern :=
  .lit target ++ .blanks ++ .lit "=" ++ .blanks ++ .group 2 caseValue

theorem run_append (p q : Pattern) (place : Cursor) (caps : Captures)
    (next : Cursor → Captures → Option Match) :
    (p ++ q).run place caps next = p.run place caps fun place caps => q.run place caps next := rfl

/-- All landmarks start at the edge of a word. -/
theorem matchAt?_landmark (target : String) (before : Option Char) (i : Nat) (t : List Char) :
    (landmark target).matchAt? ⟨before, i, t⟩ =
      if Cursor.atWordEdge ⟨before, i, t⟩ then
        (Pattern.alt caseLabel (.alt defaultLabel (assignmentTo target))).matchAt? ⟨before, i, t⟩
      else none := by
  simp only [landmark, caseLabel, defaultLabel, assignmentTo, Pattern.matchAt?, Pattern.anyOf,
    run_append, Pattern.run]
  cases Cursor.atWordEdge ⟨before, i, t⟩ <;> rfl

/-- A label begins with a character that is neither blank nor an equals sign. -/
theorem caseValue_isSome {before : Option Char} {i : Nat} {t : List Char} {caps : Captures}
    {next : Cursor → Captures → Option Match}
    (h : (caseValue.run ⟨before, i, t⟩ caps next).isSome = true) :
    ∃ c r, t = c :: r ∧ isBlank c = false ∧ c ≠ '=' := by
  cases t with
  | nil => cases h
  | cons c r =>
    refine ⟨c, r, rfl, ?_⟩
    by_cases hquote : c = '\x27' ∨ c = '\x22'
    · rcases hquote with rfl | rfl <;> decide
    · rw [not_or] at hquote
      have hnone (q : Char) (hq : c ≠ q) : (quoted q).run ⟨before, i, c :: r⟩ caps next = none :=
        run_quoted_none (by simpa using hq) before i caps next
      rw [caseValue_eq, Pattern.run, hnone _ hquote.1, Pattern.run, hnone _ hquote.2] at h
      obtain ⟨w, rest, ht, hw, hl, -⟩ := greedy_isSome.1 h
      cases w with
      | nil => cases hl
      | cons d w =>
        obtain ⟨rfl, -⟩ := List.cons.inj ht
        have hpath := hw c List.mem_cons_self
        refine ⟨isBlank_of_pathChar hpath, ?_⟩
        rintro rfl
        exact absurd hpath (by decide)

/-- `case`, blanks and the start of a value. -/
theorem caseLabel_front {before : Option Char} {i : Nat} {t : List Char} {caps : Captures}
    {next : Cursor → Captures → Option Match}
    (h : (caseLabel.run ⟨before, i, t⟩ caps next).isSome = true) :
    ∃ g c, Blank g ∧ g ≠ [] ∧ isBlank c = false ∧ c ≠ '=' ∧ "case".toList ++ (g ++ [c]) <+: t := by
  have hrun : caseLabel.run ⟨before, i, t⟩ caps next =
      (Pattern.lit "case").run ⟨before, i, t⟩ caps fun q caps =>
        (Pattern.many 1 isBlank).run q caps fun q caps =>
          caseValue.run q caps fun q' caps' =>
            (Pattern.blanks ++ Pattern.lit ":").run q' ((1, q.index, q'.index) :: caps') next := rfl
  rw [hrun, Pattern.run_lit] at h
  split at h
  · rename_i hstarts
    obtain ⟨r, rfl⟩ := List.isPrefixOf_iff_prefix.1 hstarts
    obtain ⟨g, rest, hr, hg, hl, hn⟩ := greedy_isSome.1 h
    obtain ⟨c, rest, rfl, hblank, hne⟩ := caseValue_isSome hn
    rw [List.drop_left] at hr
    subst hr
    exact ⟨g, c, hg, List.length_pos_iff.1 hl, hblank, hne, rest, by simp⟩
  · cases h

/-- A word, blanks and a sign. -/
theorem signed_front {word sign : String} {before : Option Char} {i : Nat} {t : List Char}
    {caps : Captures} {next : Cursor → Captures → Option Match}
    (h : ((Pattern.lit word ++ .blanks ++ .lit sign).run ⟨before, i, t⟩ caps next).isSome = true) :
    ∃ g, Blank g ∧ word.toList ++ (g ++ sign.toList) <+: t := by
  simp only [run_append, Pattern.run_lit] at h
  split at h
  · rename_i hstarts
    obtain ⟨r, rfl⟩ := List.isPrefixOf_iff_prefix.1 hstarts
    obtain ⟨g, rest, hr, hg, -, hn⟩ := greedy_isSome.1 h
    dsimp only at hr hn
    split at hn
    · rename_i hsign
      obtain ⟨rest, rfl⟩ := List.isPrefixOf_iff_prefix.1 hsign
      rw [List.drop_left] at hr
      subst hr
      exact ⟨g, hg, rest, by simp⟩
    · cases hn
  · cases h

theorem defaultLabel_front {before : Option Char} {i : Nat} {t : List Char} {caps : Captures}
    {next : Cursor → Captures → Option Match}
    (h : (defaultLabel.run ⟨before, i, t⟩ caps next).isSome = true) :
    ∃ g, Blank g ∧ "default".toList ++ (g ++ [':']) <+: t := signed_front h

theorem assignmentTo_front {target : String} {before : Option Char} {i : Nat} {t : List Char}
    {caps : Captures} {next : Cursor → Captures → Option Match}
    (h : ((assignmentTo target).run ⟨before, i, t⟩ caps next).isSome = true) :
    ∃ g, Blank g ∧ target.toList ++ (g ++ ['=']) <+: t := by
  rw [assignmentTo, run_append, run_append] at h
  exact signed_front h

/-- No landmark starts where none of the words does. -/
theorem matchAt?_landmark_eq_none {target : String} {before : Option Char} {i : Nat} {t : List Char}
    (hhead : ∀ c ∈ t.head?, c ≠ 'c' ∧ c ≠ 'd')
    (htarget : ∀ g, Blank g → ¬ target.toList ++ (g ++ ['=']) <+: t) :
    (landmark target).matchAt? ⟨before, i, t⟩ = none := by
  rw [matchAt?_landmark]
  split
  · rw [← Option.not_isSome_iff_eq_none]
    intro h
    rw [Pattern.matchAt?, Pattern.run] at h
    split at h
    · rename_i hcase
      obtain ⟨g, c, -, -, -, -, hfront⟩ := caseLabel_front (Option.isSome_of_eq_some hcase)
      obtain ⟨r, rfl⟩ := hfront
      exact (hhead 'c' rfl).1 rfl
    · rw [Pattern.run] at h
      split at h
      · rename_i hdefault
        obtain ⟨g, -, r, rfl⟩ := defaultLabel_front (Option.isSome_of_eq_some hdefault)
        exact (hhead 'd' rfl).2 rfl
      · obtain ⟨g, hg, hfront⟩ := assignmentTo_front h
        exact htarget g hg hfront
  · rfl

/-- A name that starts with a word character, so that there is an edge before it. -/
structure IsTarget (target : String) : Prop where
  name : isName target.toList = true
  word : target.toList.head? ≠ some '$'

namespace IsTarget

variable {target : String}

theorem exists_cons (h : IsTarget target) : ∃ c t, target.toList = c :: t ∧
    isIdentifierStart c = true ∧ isWord c = true := by
  obtain ⟨hname, hword⟩ := h
  cases ht : target.toList with
  | nil =>
    rw [ht] at hname
    cases hname
  | cons c t =>
    rw [ht] at hname hword
    simp only [isName, Bool.and_eq_true] at hname
    have hchar := isWord_of_isIdentifierChar (isIdentifierChar_of_start hname.1)
    rw [Bool.or_eq_true] at hchar
    exact ⟨c, t, rfl, hname.1, hchar.resolve_right fun hd => hword (by rw [beq_iff_eq.1 hd]; rfl)⟩

theorem wordChar (h : IsTarget target) {c : Char} (hc : c ∈ target.toList) :
    (isWord c || c == '$') = true := by
  have hname := h.name
  cases ht : target.toList with
  | nil =>
    rw [ht] at hc
    cases hc
  | cons d t =>
    rw [ht] at hc hname
    simp only [isName, Bool.and_eq_true, List.all_eq_true] at hname
    rcases List.mem_cons.1 hc with rfl | hc
    · exact isWord_of_isIdentifierChar (isIdentifierChar_of_start hname.1)
    · exact hname.2 c hc

theorem pathChar (h : IsTarget target) {c : Char} (hc : c ∈ target.toList) :
    (isPathChar c || c == '-') = true := by
  rw [isPathChar, h.wordChar hc]
  rfl

theorem not_blank (h : IsTarget target) {c : Char} (hc : c ∈ target.toList) : isBlank c = false :=
  isBlank_of_pathChar (h.pathChar hc)

theorem notMem (h : IsTarget target) {d : Char} (hd : (isWord d || d == '$') = false) :
    d ∉ target.toList := by
  intro hmem
  rw [h.wordChar hmem] at hd
  cases hd

end IsTarget

variable {target : String}

/-- Blanks and semicolons. -/
theorem misses_signs (h : IsTarget target) {w : List Char}
    (hw : ∀ c ∈ w, isIdentifierStart c = false) (before : Option Char) :
    (landmark target).Misses before w rest := by
  rintro u v i rfl hv
  obtain ⟨d, v, rfl⟩ := List.exists_cons_of_ne_nil hv
  have hd : isIdentifierStart d = false := hw d (by simp)
  refine matchAt?_landmark_eq_none ?_ ?_
  · rintro c hc
    rw [List.cons_append, List.head?_cons, Option.mem_some_iff] at hc
    subst hc
    constructor <;> rintro rfl <;> exact absurd hd (by decide)
  · rintro g - hprefix
    obtain ⟨c, t, ht, hstart, -⟩ := h.exists_cons
    rw [ht, List.cons_append, List.cons_append] at hprefix
    obtain ⟨rfl, -⟩ := List.cons_prefix_cons.1 hprefix
    rw [hd] at hstart
    cases hstart

theorem misses_blank (h : IsTarget target) {g : List Char} (hg : Blank g) (before : Option Char) :
    (landmark target).Misses before g rest := by
  exact misses_signs h (fun c hc => not_start_of_isBlank (hg c hc)) before

/-- `break`, even when the name of the target is part of it. -/
theorem misses_break (h : IsTarget target) {e : List Char} (he : Blank e) (before : Option Char) :
    (landmark target).Misses before ("break".toList ++ e) (";".toList ++ rest) := by
  intro u v i hw hv
  have hmem {c : Char} (hc : c ∈ v) : c ∈ "break".toList ++ e := hw ▸ List.mem_append_right u hc
  have hnot {c : Char} (hc : c ∉ "break".toList) (hb : isBlank c = false) : c ∉ v := fun hcv =>
    (List.mem_append.1 (hmem hcv)).elim hc (notMem_of_blank he hb)
  refine matchAt?_landmark_eq_none ?_ ?_
  · intro c hc
    obtain ⟨d, v, rfl⟩ := List.exists_cons_of_ne_nil hv
    rw [List.cons_append, List.head?_cons, Option.mem_some_iff] at hc
    subst hc
    constructor <;> rintro rfl
    · exact hnot (by decide) (by decide) List.mem_cons_self
    · exact hnot (by decide) (by decide) List.mem_cons_self
  · intro g hg hprefix
    have hstop : ';' ∉ target.toList ++ (g ++ ['=']) := by
      simp [h.notMem (by decide : (isWord ';' || ';' == '$') = false),
        notMem_of_blank hg (by decide : isBlank ';' = false)]
    exact hnot (c := '=') (by decide) (by decide) ((Bindings.prefix_before hprefix hstop).subset (by simp))

/-! ### Reading one landmark after the other -/

def scan (target : String) (before rest : List Char) (arms : Arms) : Arms :=
  ((landmark target).matchesFrom before.getLast? before.length rest).foldl (step (before ++ rest)) arms

variable {before : List Char}

theorem scan_miss {w : List Char} (h : (landmark target).Misses before.getLast? w rest)
    (arms : Arms) : scan target before (w ++ rest) arms = scan target (before ++ w) rest arms := by
  rw [scan, Pattern.matchesFrom_miss h, scan, List.getLast?_append, List.length_append,
    List.append_assoc]

theorem scan_hit {w : List Char} {caps : Captures} (hw : w ≠ [])
    (h : (landmark target).matchAt? ⟨before.getLast?, before.length, w ++ rest⟩ =
      some ⟨before.length, before.length + w.length, caps⟩) (arms : Arms) :
    scan target before (w ++ rest) arms = scan target (before ++ w) rest
      (step (before ++ (w ++ rest)) arms ⟨before.length, before.length + w.length, caps⟩) := by
  rw [scan, Pattern.matchesFrom_hit hw h, List.foldl_cons, scan, List.getLast?_append,
    List.length_append, List.append_assoc]

theorem matchAt?_of_passes {p : Pattern} {w : List Char} {add : Nat → Captures → Captures}
    (h : p.Passes w rest add) (before : Option Char) (i : Nat) :
    p.matchAt? ⟨before, i, w ++ rest⟩ = some ⟨i, i + w.length, add i []⟩ := h before i [] _ _ rfl

theorem atWordEdge_of_word {b : Option Char} {i : Nat} {t : List Char} (hb : b.any isWord = false)
    (ht : t.head?.any isWord = true) : Cursor.atWordEdge ⟨b, i, t⟩ = true := by
  rw [Cursor.atWordEdge, hb, ht]
  rfl

/-- What stands in front of a value ends there. -/
def Solid (t : List Char) : Prop := ∃ c r, t = c :: r ∧ isBlank c = false

theorem Solid.head {t : List Char} (h : Solid t) (rest : List Char) :
    ∀ c ∈ (t ++ rest).head?, isBlank c = false := by
  obtain ⟨d, r, rfl, hd⟩ := h
  intro c hc
  rw [List.cons_append, List.head?_cons, Option.mem_some_iff] at hc
  rwa [← hc]

theorem PlainText.solid (q : PlainText) : Solid q.written := by
  refine ⟨_, _, rfl, ?_⟩
  rcases q.isQuote with h | h <;> rw [h] <;> decide

theorem CaseValue.solid (v : CaseValue) : Solid v.written := by
  cases v with
  | text q => exact q.solid
  | number n =>
    obtain ⟨c, t, ht⟩ := List.exists_cons_of_ne_nil n.text_ne_nil
    exact ⟨c, t, ht, isBlank_of_pathChar (n.chars c (ht ▸ List.mem_cons_self))⟩

theorem AssignedValue.solid (a : AssignedValue) : Solid a.written := by
  cases a with
  | text q => exact q.solid
  | undefined => exact ⟨'u', "ndefined".toList, rfl, by decide⟩

theorem passes_gap {g : List Char} (hg : Blank g) (hr : ∀ c ∈ rest.head?, isBlank c = false) :
    Pattern.blanks.Passes g rest Pattern.nothing := Pattern.passes_many hg hr (Nat.zero_le _)

theorem head_colon (rest : List Char) : ∀ c ∈ (":".toList ++ rest).head?, isBlank c = false := by
  intro c hc
  have : ':' = c := by simpa using hc
  rw [← this]
  decide

theorem passes_caseLabel (v : CaseValue) {h k : List Char} (hh : Blank h) (hne : h ≠ []) (hk : Blank k) :
    caseLabel.Passes ("case".toList ++ h ++ v.written ++ k ++ ":".toList) rest
      fun i caps => (1, i + ("case".toList ++ h).length,
        i + ("case".toList ++ h).length + v.written.length) :: caps := by
  have hgap : Pattern.someBlanks.Passes h (v.written ++ (k ++ (":".toList ++ rest))) Pattern.nothing :=
    Pattern.passes_many hh (v.solid.head _) (List.length_pos_iff.2 hne)
  have hend : ∀ c ∈ (k ++ (":".toList ++ rest)).head?, (isPathChar c || c == '-') = false :=
    not_pathChar_after (d := ':') hk (by decide) rest
  exact Pattern.passes_append (Pattern.passes_append (Pattern.passes_append (Pattern.passes_append
    (Pattern.passes_lit "case" _) hgap) (passes_group 1 (passes_caseValue v hend)))
    (passes_gap hk (head_colon rest))) (Pattern.passes_lit ":" rest)

theorem passes_defaultLabel {k : List Char} (hk : Blank k) :
    defaultLabel.Passes ("default".toList ++ k ++ ":".toList) rest Pattern.nothing :=
  Pattern.passes_append (Pattern.passes_append (Pattern.passes_lit "default" _)
    (passes_gap hk (head_colon rest))) (Pattern.passes_lit ":" rest)

theorem passes_assignmentTo (target : String) (a : AssignedValue) {h k : List Char} (hh : Blank h)
    (hk : Blank k) (hr : ∀ c ∈ rest.head?, (isPathChar c || c == '-') = false) :
    (assignmentTo target).Passes (target.toList ++ h ++ "=".toList ++ k ++ a.written) rest
      fun i caps => (2, i + (target.toList ++ h ++ "=".toList ++ k).length,
        i + (target.toList ++ h ++ "=".toList ++ k).length + a.written.length) :: caps := by
  have hsign : ∀ c ∈ ("=".toList ++ (k ++ (a.written ++ rest))).head?, isBlank c = false := by
    intro c hc
    have : '=' = c := by simpa using hc
    rw [← this]
    decide
  exact Pattern.passes_append (Pattern.passes_append (Pattern.passes_append (Pattern.passes_append
    (Pattern.passes_lit target _) (passes_gap hh hsign)) (Pattern.passes_lit "=" _))
    (passes_gap hk (a.solid.head rest))) (passes_group 2 (passes_assignedValue a hr))

theorem matchAt?_case (target : String) (v : CaseValue) {h k : List Char} (hh : Blank h) (hne : h ≠ [])
    (hk : Blank k) {b : Option Char} (hb : b.any isWord = false) (i : Nat) :
    (landmark target).matchAt? ⟨b, i, ("case".toList ++ h ++ v.written ++ k ++ ":".toList) ++ rest⟩ =
      some ⟨i, i + ("case".toList ++ h ++ v.written ++ k ++ ":".toList).length,
        [(1, i + ("case".toList ++ h).length,
          i + ("case".toList ++ h).length + v.written.length)]⟩ := by
  rw [matchAt?_landmark, if_pos (atWordEdge_of_word hb (by simp [List.append_assoc]; decide))]
  exact matchAt?_of_passes (passes_alt_left (passes_caseLabel v hh hne hk)) b i

theorem matchAt?_default (target : String) {k : List Char} (hk : Blank k) {b : Option Char}
    (hb : b.any isWord = false) (i : Nat) :
    (landmark target).matchAt? ⟨b, i, ("default".toList ++ k ++ ":".toList) ++ rest⟩ =
      some ⟨i, i + ("default".toList ++ k ++ ":".toList).length, []⟩ := by
  rw [matchAt?_landmark, if_pos (atWordEdge_of_word hb (by simp [List.append_assoc]; decide))]
  refine matchAt?_of_passes (passes_alt_right ?_ (passes_alt_left (passes_defaultLabel hk))) b i
  intro before i caps next
  rw [← Option.not_isSome_iff_eq_none]
  intro hcase
  obtain ⟨g, c, -, -, -, -, r, hr⟩ := caseLabel_front hcase
  exact absurd (List.cons.inj hr).1 (by decide)

/-- A name and blanks in front of a sign are no label, even when the name is `case` or `default`. -/
theorem matchAt?_assignment (h : IsTarget target) (a : AssignedValue) {g k : List Char} (hg : Blank g)
    (hk : Blank k) (hr : ∀ c ∈ rest.head?, (isPathChar c || c == '-') = false) {b : Option Char}
    (hb : b.any isWord = false) (i : Nat) :
    (landmark target).matchAt? ⟨b, i, (target.toList ++ g ++ "=".toList ++ k ++ a.written) ++ rest⟩ =
      some ⟨i, i + (target.toList ++ g ++ "=".toList ++ k ++ a.written).length,
        [(2, i + (target.toList ++ g ++ "=".toList ++ k).length,
          i + (target.toList ++ g ++ "=".toList ++ k).length + a.written.length)]⟩ := by
  have hword : (((target.toList ++ g ++ "=".toList ++ k ++ a.written) ++ rest).head?).any isWord = true := by
    obtain ⟨c, t, ht, -, hc⟩ := h.exists_cons
    simpa [ht] using hc
  have hsplit : (target.toList ++ g ++ "=".toList ++ k ++ a.written) ++ rest =
      (target.toList ++ g) ++ '=' :: (k ++ a.written ++ rest) := by
    simp [List.append_assoc]
  rw [matchAt?_landmark, if_pos (atWordEdge_of_word hb hword)]
  refine matchAt?_of_passes (passes_alt_right ?_ (passes_alt_right ?_
    (passes_assignmentTo target a hg hk hr))) b i
  · intro before i caps next
    rw [← Option.not_isSome_iff_eq_none]
    intro hcase
    obtain ⟨g', c, hg', hne, hblank, hsign, hfront⟩ := caseLabel_front hcase
    rw [hsplit] at hfront
    have hstop : '=' ∉ "case".toList ++ (g' ++ [c]) := by
      simp [notMem_of_blank hg' (by decide : isBlank '=' = false), hsign.symm]
    obtain ⟨r, hr⟩ := Bindings.prefix_before hfront hstop
    -- the blank behind `case` is not in the name, so what follows it is blank
    obtain ⟨d, g', rfl⟩ := List.exists_cons_of_ne_nil hne
    have hname : d ∉ target.toList := fun hmem => by
      have hnot := h.not_blank hmem
      rw [hg' d List.mem_cons_self] at hnot
      cases hnot
    rcases List.append_eq_append_iff.1 hr with ⟨m, hm, -⟩ | ⟨m, hm, rfl⟩
    · exact hname (hm ▸ by simp)
    · cases List.eq_nil_or_concat m with
      | inl hnil =>
        rw [hnil, List.append_nil] at hm
        exact hname (hm ▸ by simp)
      | inr hlast =>
        obtain ⟨m, c', rfl⟩ := hlast
        have hends : ("case".toList ++ d :: g') ++ [c] = (target.toList ++ m) ++ [c'] := by
          simpa only [List.append_assoc, List.cons_append, List.concat_eq_append] using hm
        have hc : c = c' := List.singleton_inj.1 (List.append_inj_right' hends rfl)
        have hcg := hg c' (by simp)
        rw [← hc, hblank] at hcg
        cases hcg
  · intro before i caps next
    rw [← Option.not_isSome_iff_eq_none]
    intro hdefault
    obtain ⟨g', hg', hfront⟩ := defaultLabel_front hdefault
    rw [hsplit] at hfront
    have hstop : '=' ∉ "default".toList ++ (g' ++ [':']) := by
      simp [notMem_of_blank hg' (by decide : isBlank '=' = false)]
    have hcolon : ':' ∈ target.toList ++ g :=
      (Bindings.prefix_before hfront hstop).subset (by simp)
    rcases List.mem_append.1 hcolon with hmem | hmem
    · exact h.notMem (by decide) hmem
    · exact notMem_of_blank hg (by decide) hmem

/-! ### Reading clauses -/

theorem unescape_of_notMem {t : List Char} (h : '\\' ∉ t) : unescape t = t := by
  induction t with
  | nil => rfl
  | cons c t ih =>
    rw [List.mem_cons, not_or] at h
    rw [unescape_cons (Ne.symm h.1), ih h.2]

theorem stringLiteral?_plain (q : PlainText) : stringLiteral? q.written = some q.text := by
  obtain ⟨quote, text, hquote, hplain⟩ := q
  have hslash : '\\' ∉ text := fun hmem => (hplain _ hmem).2 rfl
  have hbody := literalBody_of_plain hslash fun hmem => (hplain _ hmem).1 rfl
  have hkind : isQuote quote = true ∧ quote ≠ '\x60' := by
    rcases hquote with rfl | rfl <;> decide
  rw [PlainText.written, stringLiteral?_literal hkind.1 hkind.2 hbody, unescape_of_notMem hslash]

theorem trim_plain (q : PlainText) : trim q.written = q.written := by
  obtain ⟨quote, text, hquote, hplain⟩ := q
  have hkind : isQuote quote = true := by
    rcases hquote with rfl | rfl <;> decide
  exact (trimmed_literal hkind text).trim_eq

theorem trim_word {t : List Char} (ht : ∀ c ∈ t, (isPathChar c || c == '-') = true) : trim t = t :=
  (trimmed_of_no_blank fun c hc => isBlank_of_pathChar (ht c hc)).trim_eq

theorem stringLiteral?_word {t : List Char} (ht : ∀ c ∈ t, (isPathChar c || c == '-') = true) :
    stringLiteral? t = none := by
  refine stringLiteral?_of_head fun c hc => ?_
  rw [trim_word ht] at hc
  have hpath := ht c (List.mem_of_mem_head? hc)
  have hquotes : ∀ q ∈ ['\x27', '\x22', '\x60'], (isPathChar q || q == '-') = false := by decide
  rw [← Bool.not_eq_true]
  intro hquote
  simp only [isQuote, Bool.or_eq_true, beq_iff_eq] at hquote
  have hmem : c ∈ ['\x27', '\x22', '\x60'] := by simpa [or_assoc] using hquote
  rw [hquotes c hmem] at hpath
  cases hpath

theorem literalValue_written (v : CaseValue) : literalValue v.written = v.value := by
  cases v with
  | text q =>
    rw [literalValue, CaseValue.written, trim_plain, stringLiteral?_plain]
    rfl
  | number n =>
    rw [literalValue, CaseValue.written, trim_word n.chars, stringLiteral?_word n.chars, n.read]
    rfl

theorem result_written (a : AssignedValue) :
    String.ofList ((stringLiteral? a.written).getD a.written) = a.result := by
  cases a with
  | text q =>
    show String.ofList ((stringLiteral? q.written).getD q.written) = String.ofList q.text
    rw [stringLiteral?_plain, Option.getD_some]
  | undefined =>
    have hword : ∀ c ∈ "undefined".toList, (isPathChar c || c == '-') = true := by decide
    show String.ofList ((stringLiteral? "undefined".toList).getD "undefined".toList) = "undefined"
    rw [stringLiteral?_word hword, Option.getD_none, String.ofList_toList]

theorem step_case {body u r : List Char} {i : Nat} (v : CaseValue)
    (hbody : body = u ++ (v.written ++ r)) (hi : i = u.length) (arms : Arms) (start stop : Nat) :
    step body arms ⟨start, stop, [(1, i, i + v.written.length)]⟩ =
      Label.step arms (.value v.value) := by
  have htext : Match.text? ⟨start, stop, [(1, i, i + v.written.length)]⟩ body 1 =
      some v.written := by
    rw [Match.text?, Match.span?, hbody, hi]
    exact congrArg some (slice_append_left u v.written r)
  rw [step, htext]
  show ({ arms with pending := arms.pending ++ [literalValue v.written] } : Arms) = _
  rw [literalValue_written]
  rfl

theorem step_default (body : List Char) (arms : Arms) (start stop : Nat) :
    step body arms ⟨start, stop, []⟩ = Label.step arms .default := rfl

theorem step_assignment {body u r : List Char} {i : Nat} (a : AssignedValue)
    (hbody : body = u ++ (a.written ++ r)) (hi : i = u.length) (arms : Arms) (start stop : Nat) :
    step body arms ⟨start, stop, [(2, i, i + a.written.length)]⟩ = assign arms a.result := by
  have hnone : Match.text? ⟨start, stop, [(2, i, i + a.written.length)]⟩ body 1 = none := rfl
  have htext : Match.text? ⟨start, stop, [(2, i, i + a.written.length)]⟩ body 2 =
      some a.written := by
    rw [Match.text?, Match.span?, hbody, hi]
    exact congrArg some (slice_append_left u a.written r)
  rw [step, hnone, htext]
  show (let result := String.ofList ((stringLiteral? a.written).getD a.written); ({
    cases := if arms.pending.isEmpty then arms.cases else arms.cases ++ [⟨arms.pending, result⟩]
    pending := []
    inDefault := false
    default := if arms.inDefault then arms.default.or (some result) else arms.default } : Arms)) = _
  rw [result_written]
  rfl

/-- A word that starts behind the text starts at an edge. -/
def Clear (t : List Char) : Prop := t.getLast?.any isWord = false

theorem clear_nil : Clear [] := rfl

theorem clear_append_blank {g : List Char} (h : Clear before) (hg : Blank g) : Clear (before ++ g) := by
  rw [Clear, List.getLast?_append]
  cases hlast : g.getLast? with
  | none => exact h
  | some c => exact not_isWord_of_isBlank (hg c (List.mem_of_getLast? hlast))

theorem clear_append_sign (t : List Char) {s : String} (hs : s.toList.getLast?.any isWord = false)
    (hne : s.toList ≠ []) : Clear (t ++ s.toList) := by
  rw [Clear, List.getLast?_append]
  cases hlast : s.toList.getLast? with
  | none => exact absurd (List.getLast?_eq_none_iff.1 hlast) hne
  | some c =>
    rw [hlast] at hs
    exact hs

theorem scan_case (v : CaseValue) {h k : List Char} (hh : Blank h) (hne : h ≠ []) (hk : Blank k)
    (hb : Clear before) (arms : Arms) :
    scan target before (("case".toList ++ h ++ v.written ++ k ++ ":".toList) ++ rest) arms =
      scan target (before ++ ("case".toList ++ h ++ v.written ++ k ++ ":".toList)) rest
        (Label.step arms (.value v.value)) := by
  have hbody : before ++ (("case".toList ++ h ++ v.written ++ k ++ ":".toList) ++ rest) =
      (before ++ ("case".toList ++ h)) ++ (v.written ++ (k ++ ":".toList ++ rest)) := by
    simp only [List.append_assoc]
  rw [scan_hit (by simp) (matchAt?_case target v hh hne hk hb _),
    step_case v hbody List.length_append.symm]

theorem scan_label (ht : IsTarget target) {l : WrittenLabel} {t : List Char} (h : LabelText l t)
    (hb : Clear before) (arms : Arms) :
    scan target before (t ++ rest) arms = scan target (before ++ t) rest (Label.step arms l.label) ∧
      Clear (before ++ t) := by
  cases h with
  | value v hg hh hne hk =>
    rw [List.append_assoc, scan_miss (misses_blank ht hg _),
      scan_case v hh hne hk (clear_append_blank hb hg), List.append_assoc, ← List.append_assoc before,
      ← List.append_assoc (before ++ _)]
    exact ⟨rfl, clear_append_sign _ (by decide) (by decide)⟩
  | default hg hk =>
    rw [List.append_assoc, scan_miss (misses_blank ht hg _),
      scan_hit (by simp) (matchAt?_default target hk (clear_append_blank hb hg) _), List.append_assoc,
      step_default, ← List.append_assoc before, ← List.append_assoc (before ++ _)]
    exact ⟨rfl, clear_append_sign _ (by decide) (by decide)⟩

theorem scan_labels (ht : IsTarget target) {ls : List WrittenLabel} {t : List Char}
    (h : LabelsText ls t) (hb : Clear before) (arms : Arms) :
    scan target before (t ++ rest) arms =
      scan target (before ++ t) rest ((ls.map (·.label)).foldl Label.step arms) ∧
      Clear (before ++ t) := by
  induction h generalizing before arms with
  | nil =>
    rw [List.append_nil]
    exact ⟨rfl, hb⟩
  | @cons l ls t r hl _ ih =>
    obtain ⟨hfirst, hclear⟩ := (scan_label ht hl hb arms :
      scan target before (t ++ (r ++ rest)) arms = _ ∧ _)
    obtain ⟨hrest, hclear'⟩ := ih hclear (Label.step arms l.label)
    rw [List.append_assoc, hfirst, hrest, List.append_assoc] 
    rw [List.append_assoc] at hclear'
    exact ⟨rfl, hclear'⟩

def assignIf (arms : Arms) : Option AssignedValue → Arms
  | some a => assign arms a.result
  | none => arms

/-- Scanning an assignment gives its result to the labels that wait, and leaves an edge behind. -/
theorem scan_assigned (ht : IsTarget target) {a : Option AssignedValue} {t : List Char}
    (h : AssignedText target a t) (hb : Clear before) (arms : Arms) :
    scan target before (t ++ rest) arms = scan target (before ++ t) rest (assignIf arms a) ∧
      Clear (before ++ t) := by
  cases h with
  | none =>
    rw [List.append_nil]
    exact ⟨rfl, hb⟩
  | @some a g h k e hg hh hk he =>
    have hend : ∀ c ∈ (e ++ ";".toList ++ rest).head?, (isPathChar c || c == '-') = false := by
      rw [List.append_assoc]
      exact not_pathChar_after (d := ';') he (by decide) rest
    have hsigns : ∀ c ∈ e ++ ";".toList, isIdentifierStart c = false := by
      intro c hc
      rcases List.mem_append.1 hc with hc | hc
      · exact not_start_of_isBlank (he c hc)
      · have hsemicolon : ∀ c ∈ ";".toList, isIdentifierStart c = false := by decide
        exact hsemicolon c hc
    have hbody : before ++ g ++ ((target.toList ++ h ++ "=".toList ++ k ++ a.written) ++
        (e ++ ";".toList ++ rest)) =
        (before ++ g ++ (target.toList ++ h ++ "=".toList ++ k)) ++
          (a.written ++ (e ++ ";".toList ++ rest)) := by
      simp only [List.append_assoc]
    have hne : target.toList ++ h ++ "=".toList ++ k ++ a.written ≠ [] := by simp
    rw [List.append_assoc, scan_miss (misses_blank ht hg _), List.append_assoc _ (e ++ _) rest,
      scan_hit hne (matchAt?_assignment ht a hh hk hend (clear_append_blank hb hg) _),
      step_assignment a hbody List.length_append.symm, scan_miss (misses_signs ht hsigns _)]
    constructor
    · simp only [List.append_assoc]
      rfl
    · simp only [← List.append_assoc]
      exact clear_append_sign _ (by decide) (by decide)

theorem scan_nil (ht : IsTarget target) (before : List Char) (arms : Arms) :
    scan target before [] arms = arms := by
  obtain ⟨c, t, hname, -, -⟩ := ht.exists_cons
  have hnone : (landmark target).matchAt? ⟨before.getLast?, before.length, []⟩ = none :=
    matchAt?_landmark_eq_none (by simp) (by simp [hname])
  rw [scan, Pattern.matchesFrom, Pattern.collect, hnone]
  simp

theorem step_clause (arms : Arms) (c : WrittenClause) : Clause.step arms c.clause =
    assignIf ((c.labels.map (·.label)).foldl Label.step arms) c.assigned := by
  rw [Clause.step, WrittenClause.clause]
  cases c.assigned <;> rfl

/-- The landmarks of the clauses are found one after the other, and nothing else is. -/
theorem scan_clauses (ht : IsTarget target) {cs : List WrittenClause} {t : List Char}
    (h : ClausesText target cs t) (hb : Clear before) (arms : Arms) :
    scan target before t arms = (cs.map (·.clause)).foldl Clause.step arms := by
  induction h generalizing before arms with
  | @nil g hg =>
    have hmiss : scan target before (g ++ []) arms = _ :=
      scan_miss (misses_blank ht hg before.getLast?) arms
    rw [List.append_nil] at hmiss
    rw [hmiss, scan_nil ht]
    rfl
  | cons hl ha hg he _ ih =>
    obtain ⟨hlabels, hclear⟩ := scan_labels ht hl hb arms
    obtain ⟨hassigned, -⟩ := scan_assigned ht ha hclear _
    have hsign : ∀ c ∈ ";".toList, isIdentifierStart c = false := by decide
    rw [hlabels, hassigned, scan_miss (misses_blank ht hg _), scan_miss (misses_break ht he _),
      scan_miss (misses_signs ht hsign _), ih (clear_append_sign _ (by decide) (by decide)),
      ← step_clause]
    rfl

end JsxToJinja.Switch
