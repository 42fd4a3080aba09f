import JsxToJinja.Proofs.Code.Cuts
import JsxToJinja.Proofs.Component.DeclaredNames

/-! Texts of declarations, and how they are read: where each body is closed by its own brace and no
head is spelled between the heads, the scope has the declarations as they stand. -/
namespace JsxToJinja
open JsxToJinja.Text JsxToJinja.Code

/-! ### Scans of a front -/

/-- What is scanned of a text is scanned alike in front of more. -/
theorem marksFrom_append (mode : Mode) (d i : Nat) (w rest : List Char) :
    ∃ tail, marksFrom mode d i (w ++ rest) =
      (marksFrom mode d i w).map (fun m => { m with rest := m.rest ++ rest }) ++ tail := by
  induction w generalizing mode d i with
  | nil => exact ⟨_, rfl⟩
  | cons c w ih =>
    have hmark {d' : Nat} {mode' : Mode} {depth : Nat} :
        ∃ tail, (⟨i, c, depth, c :: (w ++ rest)⟩ : Mark) :: marksFrom mode' d' (i + 1) (w ++ rest) =
          (⟨i, c, depth, c :: w⟩ :: marksFrom mode' d' (i + 1) w).map
            (fun m => { m with rest := m.rest ++ rest }) ++ tail := by
      obtain ⟨tail, ht⟩ := ih mode' d' (i + 1)
      exact ⟨tail, by rw [ht]; rfl⟩
    cases mode with
    | escaped q => exact ih (.quoted q) d (i + 1)
    | quoted q =>
      rw [List.cons_append, marksFrom, marksFrom]
      split
      · exact ih (.escaped q) d (i + 1)
      · split
        · exact hmark
        · exact ih (.quoted q) d (i + 1)
    | code =>
      rw [List.cons_append, marksFrom, marksFrom]
      split
      · exact hmark
      · split
        · exact hmark
        · split <;> exact hmark

/-- The bracket that closes a group closes it in front of more text as well. -/
theorem balancedLength?_append {w : List Char} {n : Nat} (h : balancedLength? w = some n)
    (rest : List Char) : balancedLength? (w ++ rest) = some n := by
  cases w with
  | nil => cases h
  | cons c w =>
    rw [balancedLength?] at h
    obtain ⟨close, hc, h⟩ := Option.bind_eq_some_iff.1 h
    obtain ⟨m, hm, hn⟩ := Option.bind_eq_some_iff.1 h
    cases hn
    obtain ⟨tail, ht⟩ := marksFrom_append .code 0 0 (c :: w) rest
    have hfind : (marks ((c :: w) ++ rest)).find?
        (fun m => 0 < m.index && m.depth == 0 && m.char == close) =
          some { m with rest := m.rest ++ rest } := by
      rw [marks, ht, List.find?_append, List.find?_map]
      have hsame : (marksFrom .code 0 0 (c :: w)).find? ((fun m : Mark =>
          decide (0 < m.index) && m.depth == 0 && m.char == close) ∘
            fun m => { m with rest := m.rest ++ rest }) = some m := hm
      rw [hsame]
      rfl
    rw [List.cons_append] at hfind ⊢
    simp [balancedLength?, hc, hfind]

/-- A group between braces ends at its last brace, whatever follows. -/
theorem balancedInner?_group {body : List Char}
    (h : isGroup '\x7b' ('\x7b' :: (body ++ ['\x7d'])) = true) (pre rest : List Char) :
    balancedInner? (pre ++ '\x7b' :: (body ++ '\x7d' :: rest)) pre.length = some body := by
  have hlen : balancedLength? ('\x7b' :: (body ++ ['\x7d'])) = some (body.length + 1) := by
    simpa [isGroup] using h
  have happ := balancedLength?_append hlen rest
  have hsplit : ('\x7b' :: (body ++ ['\x7d'])) ++ rest = '\x7b' :: (body ++ '\x7d' :: rest) := by simp
  have hslice := slice_append_left (pre ++ ['\x7b']) body ('\x7d' :: rest)
  rw [hsplit] at happ
  rw [balancedInner?, balancedEnd?, List.drop_left, happ]
  simpa [Nat.add_assoc, Nat.add_comm 1] using hslice

namespace Member

/-- A line break behind the first operator of a type continues it. -/
def continues : List Char := ['|', '&', '=', '?']

theorem startsWithAny_trimStart_append {w : List Char} {s : Char} {rest : List Char}
    (h : isBlank s = true → ∀ c ∈ (trimStart rest).head?, c ∉ continues) :
    startsWithAny (trimStart (w ++ [s])) continues =
      startsWithAny (trimStart (w ++ s :: rest)) continues := by
  induction w with
  | nil =>
    by_cases hs : isBlank s = true
    · have hrest : startsWithAny (trimStart rest) continues = false := by
        cases hr : trimStart rest with
        | nil => rfl
        | cons c r =>
          rw [hr] at h
          simpa [startsWithAny] using h hs c rfl
      simpa [trimStart, List.dropWhile_cons, hs, startsWithAny] using hrest.symm
    · simp [trimStart, hs, startsWithAny]
  | cons c w ih =>
    by_cases hc : isBlank c = true
    · simpa [trimStart, List.dropWhile_cons, hc] using ih
    · simp [trimStart, hc, startsWithAny]

theorem continuesAt_append {w : List Char} {s : Char} {rest : List Char}
    (h : isBlank s = true → ∀ c ∈ (trimStart rest).head?, c ∉ continues) {i : Nat} (hi : i ≤ w.length) :
    continuesAt (w ++ [s]) i = continuesAt (w ++ s :: rest) i := by
  have hdrop : startsWithAny (trimStart (w.drop i ++ [s])) ['|', '&', '=', '?'] =
      startsWithAny (trimStart (w.drop i ++ s :: rest)) ['|', '&', '=', '?'] :=
    startsWithAny_trimStart_append h
  rw [continuesAt, continuesAt, List.take_append_of_le_length hi, List.take_append_of_le_length hi,
    List.drop_append_of_le_length hi, List.drop_append_of_le_length hi, hdrop]

theorem endFrom_append {t t' : List Char} {ms tail : List Mark} {angle : Nat} {last : Char} {n : Nat}
    {f : Mark → Mark} (hf : ∀ m, (f m).index = m.index ∧ (f m).char = m.char ∧ (f m).depth = m.depth)
    (hc : ∀ m ∈ ms, continuesAt t m.index = continuesAt t' m.index)
    (h : endFrom t angle last ms = some n) : endFrom t' angle last (ms.map f ++ tail) = some n := by
  induction ms generalizing angle last with
  | nil => cases h
  | cons m ms ih =>
    obtain ⟨hi, hch, hd⟩ := hf m
    have hhere := hc m (by simp)
    have hlater : ∀ m ∈ ms, continuesAt t m.index = continuesAt t' m.index :=
      fun m' hm' => hc m' (by simp [hm'])
    rw [endFrom] at h
    rw [List.map_cons, List.cons_append, endFrom, hi, hch, hd, ← hhere]
    grind

/-- A member ends where it ends alone, unless what follows a line break continues its type. -/
theorem stop?_append {w : List Char} {s : Char} {rest : List Char}
    (h : stop? (w ++ [s]) = some w.length)
    (hr : isBlank s = true → ∀ c ∈ (trimStart rest).head?, c ∉ continues) :
    stop? (w ++ s :: rest) = some w.length := by
  obtain ⟨tail, ht⟩ := marksFrom_append .code 0 0 (w ++ [s]) rest
  have hsplit : w ++ s :: rest = (w ++ [s]) ++ rest := by simp
  rw [stop?, marks, hsplit, ht, ← hsplit]
  refine endFrom_append (fun m => ⟨rfl, rfl, rfl⟩) (fun m hm => ?_) h
  have hlt := index_lt_of_mem_marksFrom hm
  simp only [List.length_append, List.length_singleton] at hlt
  exact continuesAt_append hr (by omega)

end Member

/-! ### Heads -/

/-- Blanks that keep two words apart. -/
structure Space extends Gap where
  apart : 1 ≤ chars.length

def Space.single : Space := ⟨.space, by decide⟩

/-- The word of a declaration. -/
inductive Keyword where
  | interface
  | type

namespace Keyword

def word : Keyword → String
  | interface => "interface"
  | type => "type"

def sign : Keyword → Char
  | interface => '\x7b'
  | type => '='

end Keyword

/-- Parameters of a declared type, and the gap behind their brackets. -/
structure TypeParams (k : Keyword) where
  text : List Char
  plain : ∀ c ∈ text, (c != '>' && c != k.sign) = true
  after : Gap

/-- The words of a declaration up to its name and parameters. -/
structure Opening (k : Keyword) where
  exported : Option Space
  lead : Space
  name : List Char
  named : isName name = true
  after : Gap
  params : Option (TypeParams k)

namespace Opening
open Pattern

variable {k : Keyword}

def front (o : Opening k) : List Char :=
  o.exported.elim [] (fun g => "export".toList ++ g.chars) ++ k.word.toList ++ o.lead.chars

def bracket (o : Opening k) : List Char :=
  o.params.elim [] fun p => "<".toList ++ p.text ++ ">".toList

def trail (o : Opening k) : List Char := o.params.elim [] (·.after.chars)

def text (o : Opening k) : List Char := o.front ++ o.name ++ o.after.chars ++ o.bracket ++ o.trail

def captures (o : Opening k) (i : Nat) (caps : Captures) : Captures :=
  (1, i + o.front.length, i + o.front.length + o.name.length) :: caps

def pattern (k : Keyword) : Pattern :=
  .opt (.lit "export" ++ .someBlanks) ++ .lit k.word ++ .someBlanks ++ .group 1 .identifier ++
    .blanks ++ .opt (.lit "<" ++ .many 0 (fun c => c != '>' && c != k.sign) ++ .lit ">") ++ .blanks

theorem head?_append {w rest : List Char} {P : Char → Prop} (hw : w ≠ []) (h : ∀ c ∈ w.head?, P c) :
    ∀ c ∈ (w ++ rest).head?, P c := by
  cases w with
  | nil => exact absurd rfl hw
  | cons c w => exact h

/-- The words in front of a declared name are passed, with `export` or without. -/
theorem passes_front (o : Opening k) (rest : List Char) :
    (opt (lit "export" ++ someBlanks) ++ lit k.word ++ someBlanks).Passes o.front (o.name ++ rest)
      nothing := by
  have hword : ∀ c ∈ k.word.toList.head?, isBlank c = false := by cases k <;> decide
  have hname : ∀ c ∈ (o.name ++ rest).head?, isBlank c = false := by
    refine head?_append ?_ (trimmed_of_isName o.named).head
    intro hnil
    have := o.named
    rw [hnil] at this
    cases this
  have hlead : someBlanks.Passes o.lead.chars (o.name ++ rest) nothing :=
    passes_many o.lead.blank hname o.lead.apart
  refine passes_append (passes_append ?_ (passes_lit _ _)) hlead
  cases o.exported with
  | none =>
    refine passes_opt_lit "export" _ ?_
    cases k <;> rfl
  | some g =>
    refine passes_opt (passes_append (passes_lit _ _) (passes_many g.blank ?_ g.apart))
    exact head?_append (by cases k <;> simp [Keyword.word]) hword

/-- Behind the name stands no character of a name. -/
theorem not_word_back (o : Opening k) {rest : List Char}
    (h : o.after.chars = [] → o.params = none → ∀ c ∈ rest.head?, (isWord c || c == '$') = false) :
    ∀ c ∈ (o.after.chars ++ (o.bracket ++ (o.trail ++ rest))).head?,
      (isWord c || c == '$') = false := by
  cases hp : o.params with
  | some p =>
    rw [bracket, hp]
    exact not_word_after o.after.blank (d := '<') (by decide) _
  | none =>
    rw [bracket, trail, hp]
    cases ha : o.after.chars with
    | nil => exact h ha hp
    | cons b g =>
      have hblank : isBlank b = true := o.after.blank b (by simp [ha])
      exact not_word_after (g := []) blank_nil (d := b)
        (by simp [not_isWord_of_isBlank hblank, ne_of_isBlank hblank (d := '$') (by decide)]) _

/-- The pattern of a declaration takes its whole head and captures the name. -/
theorem passes (o : Opening k) {rest : List Char} (hr : ∀ c ∈ rest.head?, isBlank c = false ∧ c ≠ '<')
    (h : o.after.chars = [] → o.params = none → ∀ c ∈ rest.head?, (isWord c || c == '$') = false) :
    (pattern k).Passes o.text rest o.captures := by
  have hblank : ∀ c ∈ rest.head?, isBlank c = false := fun c hc => (hr c hc).1
  have hname := passes_append (o.passes_front _) (passes_name 1 o.named (o.not_word_back h))
  let inner : Pattern := many 0 fun c => c != '>' && c != k.sign
  have hparams : (opt (lit "<" ++ inner ++ lit ">")).Passes o.bracket (o.trail ++ rest) nothing ∧
      blanks.Passes o.trail rest nothing ∧ ∀ c ∈ (o.bracket ++ (o.trail ++ rest)).head?,
        isBlank c = false := by
    rw [bracket, trail]
    cases o.params with
    | none =>
      have hangle : startsWith rest "<".toList = false := by
        refine startsWith_of_head (fun hc => ?_) []
        exact (hr '<' (Option.mem_def.2 hc)).2 rfl
      exact ⟨passes_opt_lit "<" (inner ++ lit ">") hangle, passes_many blank_nil hblank (Nat.zero_le _),
        hblank⟩
    | some p =>
      have hinner : inner.Passes p.text (">".toList ++ (p.after.chars ++ rest)) nothing :=
        passes_many p.plain (by simp) (Nat.zero_le _)
      refine ⟨passes_opt ?_, passes_many p.after.blank hblank (Nat.zero_le _), by simp; decide⟩
      exact passes_append (passes_append (passes_lit "<" _) hinner) (passes_lit ">" _)
  obtain ⟨hbracket, htrail, hhead⟩ := hparams
  have hafter : blanks.Passes o.after.chars (o.bracket ++ (o.trail ++ rest)) nothing :=
    passes_many o.after.blank hhead (Nat.zero_le _)
  exact passes_append (passes_append (passes_append hname hafter) hbracket) htrail

/-- What the capture of the name reads. -/
theorem slice_name (o : Opening k) (pre rest : List Char) :
    slice (pre ++ (o.text ++ rest)) (pre.length + o.front.length)
      (pre.length + o.front.length + o.name.length) = o.name := by
  have hsplit : pre ++ (o.text ++ rest) =
      (pre ++ o.front) ++ (o.name ++ (o.after.chars ++ (o.bracket ++ (o.trail ++ rest)))) := by
    simp [text]
  rw [hsplit, ← List.length_append]
  exact slice_append_left _ _ _

end Opening

/-- What an interface extends, with the gaps around it. -/
structure Parents where
  lead : Space
  text : List Char
  trimmed : Trimmed text
  nonempty : 1 ≤ text.length
  plain : ∀ c ∈ text, (c != '\x7b') = true
  after : Gap

namespace Parents
open Pattern

def front (p : Parents) : List Char := "extends".toList ++ p.lead.chars

def print (p : Parents) : List Char := p.front ++ (p.text ++ p.after.chars)

theorem exists_print (p : Parents) : ∃ r, p.print = 'e' :: r := ⟨_, rfl⟩

def brace : Pattern := blanks ++ one (· == '\x7b')

def extended : Pattern := lit "extends" ++ someBlanks ++ group 2 (few 1 (· != '\x7b'))

variable {before : Option Char} {i : Nat} {caps : Captures} {rest : List Char}
variable {next : Cursor → Captures → Option Match} {found : Match}

theorem passes_brace {g : List Char} (hg : Blank g) : brace.Passes (g ++ ['\x7b']) rest nothing :=
  passes_append (passes_many hg (by simp; decide) (Nat.zero_le _)) (passes_one rfl rest)

/-- A text that holds more than blanks before a brace. -/
theorem run_brace_eq_none {v r : List Char} (hv : v ≠ []) (hlast : ∀ c ∈ v.getLast?, isBlank c = false)
    (hplain : ∀ c ∈ v, (c != '\x7b') = true) :
    brace.run ⟨before, i, v ++ r⟩ caps next = none := by
  rw [← Option.not_isSome_iff_eq_none]
  intro hs
  obtain ⟨w, rest, heq, hw, -, hn⟩ := greedy_isSome.1 hs
  have hvblank : ¬ Blank v := by
    intro hb
    have hlast := hlast _ (List.getLast?_eq_some_getLast hv)
    rw [hb _ (List.getLast_mem hv)] at hlast
    cases hlast
  rcases List.append_eq_append_iff.1 heq with ⟨m, hm, -⟩ | ⟨m, hm, hr⟩
  · exact hvblank fun c hc => hw c (by simp [hm, hc])
  · cases rest with
    | nil => cases hn
    | cons d rest =>
      cases m with
      | nil => exact hvblank fun c hc => hw c (by simpa [hm] using hc)
      | cons e m =>
        obtain ⟨rfl, -⟩ := List.cons.inj hr
        dsimp only at hn
        rw [run_one_cons] at hn
        split at hn
        · rename_i hd
          have := hplain d (by simp [hm])
          simp [beq_iff_eq.1 hd] at this
        · cases hn

/-- What an interface extends is taken up to the gap before the brace. -/
theorem run_extended (p : Parents)
    (hn : next ⟨some '\x7b', i + (p.print ++ ['\x7b']).length, rest⟩
      ((2, i + p.front.length, i + p.front.length + p.text.length) :: caps) = some found) :
    (opt extended).run ⟨before, i, p.print ++ '\x7b' :: rest⟩ caps
      (fun q caps => brace.run q caps next) = some found := by
  have hfirst : ∀ c ∈ (p.text ++ (p.after.chars ++ '\x7b' :: rest)).head?, isBlank c = false :=
    Opening.head?_append (List.length_pos_iff.1 p.nonempty) p.trimmed.head
  have hlead : (lit "extends" ++ someBlanks).Passes p.front
      (p.text ++ (p.after.chars ++ '\x7b' :: rest)) nothing :=
    passes_append (passes_lit _ _) (passes_many p.lead.blank hfirst p.lead.apart)
  have hfew (b : Option Char) : (few 1 (· != '\x7b')).run
      ⟨b, i + p.front.length, p.text ++ (p.after.chars ++ '\x7b' :: rest)⟩ caps
        (fun q caps => brace.run q ((2, i + p.front.length, q.index) :: caps) next) = some found := by
    refine reluctant_eq_some p.plain p.nonempty (fun before i v hv hs => ?_) ?_
    · refine run_brace_eq_none hv (fun c hc => p.trimmed.last c ?_) (fun c hc => p.plain c ?_)
      · obtain ⟨u, hu⟩ := hs
        simp [← hu, Option.mem_def.1 hc]
      · exact hs.mem hc
    · have hpass : brace.Passes (p.after.chars ++ ['\x7b']) rest nothing :=
        passes_brace p.after.blank
      have hclose := hpass (p.text.getLast?.or b) (i + p.front.length + p.text.length)
        ((2, i + p.front.length, i + p.front.length + p.text.length) :: caps) next found
      simp only [List.append_assoc, List.singleton_append] at hclose
      refine hclose ?_
      simpa [print, Nat.add_assoc] using hn
  have hrun := hlead before i caps
    (fun q caps => (group 2 (few 1 (· != '\x7b'))).run q caps fun q caps => brace.run q caps next)
    found (hfew _)
  have hext : extended.run ⟨before, i, p.print ++ '\x7b' :: rest⟩ caps
      (fun q caps => brace.run q caps next) = some found := by
    rw [print, List.append_assoc, List.append_assoc]
    exact hrun
  rw [run, hext]

end Parents

/-- An interface up to the brace that opens its body. -/
structure InterfaceHead extends Opening .interface where
  parents : Option Parents
  apart : after.chars = [] → params = none → parents = none

namespace InterfaceHead
open Pattern

def text (h : InterfaceHead) : List Char :=
  h.toOpening.text ++ (h.parents.elim [] Parents.print ++ ['\x7b'])

def simple (name : List Char) (named : isName name = true) : InterfaceHead where
  exported := none
  lead := .single
  name := name
  named := named
  after := .space
  params := none
  parents := none
  apart := fun _ _ => rfl

def captures (h : InterfaceHead) (i : Nat) : Captures :=
  let named := h.toOpening.captures i []
  h.parents.elim named fun p =>
    let start := i + h.toOpening.text.length + p.front.length
    (2, start, start + p.text.length) :: named

/-- An interface is found at its head, the types it extends captured. -/
theorem matchAt?_text (h : InterfaceHead) (before : Option Char) (i : Nat) (rest : List Char) :
    TypeScope.interfaceHead.matchAt? ⟨before, i, h.text ++ rest⟩ =
      some ⟨i, i + h.text.length, h.captures i⟩ := by
  let finish (q : Cursor) (caps : Captures) : Option Match := some ⟨i, q.index, caps⟩
  have hrest : ∀ c ∈ (h.parents.elim [] Parents.print ++ ['\x7b'] ++ rest).head?,
      isBlank c = false ∧ c ≠ '<' := by
    cases h.parents with
    | none => simp; decide
    | some p =>
      obtain ⟨r, hr⟩ := p.exists_print
      rw [Option.elim_some, hr]
      simp; decide
  have hword : h.after.chars = [] → h.params = none →
      ∀ c ∈ (h.parents.elim [] Parents.print ++ ['\x7b'] ++ rest).head?,
        (isWord c || c == '$') = false := by
    intro ha hp
    rw [h.apart ha hp]
    simp; decide
  have hopening := h.toOpening.passes hrest hword before i []
    (fun q caps => (opt Parents.extended).run q caps fun q caps => Parents.brace.run q caps finish)
    ⟨i, i + h.text.length, h.captures i⟩
  rw [text, List.append_assoc]
  refine hopening ?_
  rw [text, captures]
  cases h.parents with
  | none =>
    have hskip : (opt Parents.extended).Passes [] ('\x7b' :: rest) nothing :=
      passes_opt_lit "extends" (someBlanks ++ group 2 (few 1 (· != '\x7b'))) rfl
    refine hskip _ _ _ _ _ (Parents.passes_brace blank_nil _ _ _ finish _ ?_)
    simp [finish, Nat.add_assoc]
  | some p =>
    rw [Option.elim_some, List.append_assoc]
    refine p.run_extended ?_
    simp [finish, Nat.add_assoc]

/-- What a match at the head reads. -/
theorem text_captures (h : InterfaceHead) (pre rest : List Char) (stop : Nat) :
    let m : Match := ⟨pre.length, stop, h.captures pre.length⟩
    m.text (pre ++ (h.text ++ rest)) 1 = h.name ∧
      m.text? (pre ++ (h.text ++ rest)) 2 = h.parents.map Parents.text := by
  have hname := h.toOpening.slice_name pre
    (h.parents.elim [] Parents.print ++ ['\x7b'] ++ rest)
  have htext : h.toOpening.text ++ (h.parents.elim [] Parents.print ++ ['\x7b']) = h.text := rfl
  rw [← List.append_assoc h.toOpening.text, htext] at hname
  cases hp : h.parents with
  | none =>
    simpa [Match.text, Match.text?, Match.span?, captures, hp, Opening.captures] using hname
  | some p =>
    have hparents : pre ++ (h.text ++ rest) = (pre ++ h.toOpening.text ++ p.front) ++
        (p.text ++ (p.after.chars ++ '\x7b' :: rest)) := by
      simp [text, hp, Parents.print]
    have hslice := slice_append_left (pre ++ h.toOpening.text ++ p.front) p.text
      (p.after.chars ++ '\x7b' :: rest)
    rw [← hparents] at hslice
    simp only [List.length_append] at hslice
    simp [Match.text, Match.text?, Match.span?, captures, hp, Opening.captures, hname, hslice]

end InterfaceHead

namespace Opening
open Pattern

/-- An alias is found at its head, up to the sign behind the name. -/
theorem matchAt?_alias (o : Opening .type) {before : Option Char}
    (hb : ∀ c ∈ before, isWord c = false) (i : Nat) (rest : List Char) :
    TypeScope.aliasHead.matchAt? ⟨before, i, (o.text ++ ['=']) ++ rest⟩ =
      some ⟨i, i + (o.text ++ ['=']).length, o.captures i []⟩ := by
  have hrest : ∀ c ∈ (['='] ++ rest).head?, isBlank c = false ∧ c ≠ '<' := by simp; decide
  have hword : o.after.chars = [] → o.params = none →
      ∀ c ∈ (['='] ++ rest).head?, (isWord c || c == '$') = false := by
    intro _ _
    simp; decide
  obtain ⟨c, r, ho, hc⟩ : ∃ c r, o.text = c :: r ∧ isWord c = true := by
    rw [text, front]
    cases o.exported with
    | none => exact ⟨'t', _, rfl, by decide⟩
    | some g => exact ⟨'e', _, rfl, by decide⟩
  have hedge : Cursor.atWordEdge ⟨before, i, o.text ++ (['='] ++ rest)⟩ = true := by
    have hbefore : before.any isWord = false := by
      cases before with
      | none => rfl
      | some b => exact hb b rfl
    simp [Cursor.atWordEdge, ho, hc, hbefore]
  have hopening := o.passes hrest hword before i []
    (fun q caps => (lit "=").run q caps fun q caps => some ⟨i, q.index, caps⟩)
    ⟨i, i + (o.text ++ ['=']).length, o.captures i []⟩
    (passes_lit "=" rest _ _ _ _ _ (by simp [Nat.add_assoc]))
  have hrun : TypeScope.aliasHead.matchAt? ⟨before, i, o.text ++ (['='] ++ rest)⟩ =
      if Cursor.atWordEdge ⟨before, i, o.text ++ (['='] ++ rest)⟩ then
        (pattern .type).run ⟨before, i, o.text ++ (['='] ++ rest)⟩ []
          (fun q caps => (lit "=").run q caps fun q caps => some ⟨i, q.index, caps⟩)
      else none := rfl
  rw [List.append_assoc, hrun, if_pos hedge, hopening]

end Opening

namespace Keyword

/-- Where neither the word of a declaration nor an export stands, no head starts. -/
theorem run_eq_none {k : Keyword} {t : List Char} (hexport : startsWith t "export".toList = false)
    (hword : startsWith t k.word.toList = false) (before : Option Char) (i : Nat) (caps : Captures)
    (next : Cursor → Captures → Option Match) :
    (Pattern.opt (.lit "export" ++ .someBlanks)).run ⟨before, i, t⟩ caps
      (fun q caps => (Pattern.lit k.word).run q caps next) = none := by
  have hlit : (Pattern.lit k.word).run ⟨before, i, t⟩ caps next = none := by
    rw [Pattern.run_lit, if_neg (ne_true_of_eq_false hword)]
  have hbody : (Pattern.lit "export" ++ Pattern.someBlanks).run ⟨before, i, t⟩ caps
      (fun q caps => (Pattern.lit k.word).run q caps next) = none := by
    have := Pattern.run_lit "export" ⟨before, i, t⟩ caps fun q caps =>
      Pattern.someBlanks.run q caps fun q caps => (Pattern.lit k.word).run q caps next
    rwa [if_neg (ne_true_of_eq_false hexport)] at this
  rw [Pattern.run, hbody]
  exact hlit

/-- No word of a declaration begins in the text. -/
def plain (k : Keyword) : List Char → List Char → Bool
  | [], _ => true
  | c :: w, rest => !startsWith (c :: (w ++ rest)) "export".toList &&
      !startsWith (c :: (w ++ rest)) k.word.toList && plain k w rest

theorem not_starts_of_plain {k : Keyword} {u v rest : List Char}
    (h : plain k (u ++ v) rest = true) (hv : v ≠ []) :
    startsWith (v ++ rest) "export".toList = false ∧
      startsWith (v ++ rest) k.word.toList = false := by
  induction u with
  | nil =>
    cases v with
    | nil => exact absurd rfl hv
    | cons c v =>
      simp only [List.nil_append, plain, Bool.and_eq_true, Bool.not_eq_true'] at h
      exact h.1
  | cons c u ih =>
    rw [List.cons_append, plain, Bool.and_eq_true] at h
    exact ih h.2

theorem misses_interface {w rest : List Char} (h : plain .interface w rest = true)
    (before : Option Char) : TypeScope.interfaceHead.Misses before w rest := by
  rintro u v i rfl hv
  obtain ⟨hexport, hword⟩ := not_starts_of_plain h hv
  exact run_eq_none hexport hword _ _ _ _

/-- Where no word of an alias begins no alias is found. -/
theorem misses_alias {w rest : List Char} (h : plain .type w rest = true) (before : Option Char) :
    TypeScope.aliasHead.Misses before w rest := by
  rintro u v i rfl hv
  obtain ⟨hexport, hword⟩ := not_starts_of_plain h hv
  have hnone := run_eq_none hexport hword (u.getLast?.or before) i []
  have hrun (place : Cursor) : ∃ next, TypeScope.aliasHead.matchAt? place =
      if place.atWordEdge then (Pattern.opt (.lit "export" ++ .someBlanks)).run place []
        (fun q caps => (Pattern.lit Keyword.type.word).run q caps next) else none := ⟨_, rfl⟩
  obtain ⟨next, hnext⟩ := hrun ⟨u.getLast?.or before, i, v ++ rest⟩
  rw [hnext, hnone, ite_self]

theorem matchAt?_alias_nil (before : Option Char) (i : Nat) :
    TypeScope.aliasHead.matchAt? ⟨before, i, []⟩ = none := by
  have hrun : TypeScope.aliasHead.matchAt? ⟨before, i, []⟩ =
      if Cursor.atWordEdge ⟨before, i, []⟩ then none else none := rfl
  rw [hrun, ite_self]

theorem findAll_alias {t : List Char} (h : plain .type t [] = true) :
    TypeScope.aliasHead.findAll t = [] :=
  Pattern.matchesFrom_eq_nil (misses_alias h none) matchAt?_alias_nil 0

end Keyword

/-! ### Sources -/

/-- An interface as it stands in a text, with what follows up to the next one. -/
structure Declaration where
  head : InterfaceHead
  body : List Char
  after : List Char

namespace Declaration

def inside (d : Declaration) : List Char := d.body ++ '\x7d' :: d.after

def text (d : Declaration) : List Char := d.head.text ++ d.inside

def name (d : Declaration) : String := String.ofList d.head.name

def decl (d : Declaration) : TypeDecl :=
  .interface ((d.head.parents.map (splitTopLevel ·.text [','])).getD []) (Member.parseAll d.body)

def texts (ds : List Declaration) (tail : List Char) : List Char :=
  ds.foldr (fun d rest => d.text ++ rest) tail

/-- Each body is closed by its own brace, and no head is spelled between the heads. -/
def Apart : Option Char → List Declaration → List Char → Prop
  | before, [], tail => TypeScope.interfaceHead.Misses before tail []
  | _, d :: ds, tail => isGroup '\x7b' ('\x7b' :: (d.body ++ ['\x7d'])) = true ∧
      TypeScope.interfaceHead.Misses (some '\x7b') d.inside (texts ds tail) ∧
        Apart (d.inside.getLast?.or (some '\x7b')) ds tail

/-- An interface that is found is entered with the members between its braces. -/
theorem addInterface_text {d : Declaration}
    (hclosed : isGroup '\x7b' ('\x7b' :: (d.body ++ ['\x7d'])) = true) (pre rest : List Char)
    (scope : TypeScope) :
    scope.addInterface (pre ++ (d.text ++ rest))
      ⟨pre.length, pre.length + d.head.text.length, d.head.captures pre.length⟩ =
        scope.insert d.name d.decl := by
  obtain ⟨hname, hparents⟩ := d.head.text_captures pre (d.inside ++ rest)
    (pre.length + d.head.text.length)
  have hbrace : d.head.text = d.head.toOpening.text ++ d.head.parents.elim [] Parents.print ++
      ['\x7b'] := by simp [InterfaceHead.text]
  have hlen : pre.length + d.head.text.length - 1 =
      (pre ++ (d.head.toOpening.text ++ d.head.parents.elim [] Parents.print)).length := by
    simp [hbrace]
    omega
  have hbody := balancedInner?_group hclosed
    (pre ++ (d.head.toOpening.text ++ d.head.parents.elim [] Parents.print)) (d.after ++ rest)
  have htext : pre ++ (d.text ++ rest) = pre ++ (d.head.toOpening.text ++
      d.head.parents.elim [] Parents.print) ++ '\x7b' :: (d.body ++ '\x7d' :: (d.after ++ rest)) := by
    simp [text, inside, hbrace]
  rw [← htext, ← hlen] at hbody
  rw [text, List.append_assoc] at hbody ⊢
  rw [TypeScope.addInterface]
  dsimp only
  rw [hbody, hparents, hname]
  simp only [Option.map_map]
  rfl

def scope (ds : List Declaration) : TypeScope := ds.foldl (fun s d => s.insert d.name d.decl) {}

/-- The interfaces of a text are entered in their order, and nothing else is. -/
theorem foldl_addInterface {ds : List Declaration} {before : Option Char} {tail : List Char}
    (h : Apart before ds tail) (pre : List Char) (start : TypeScope) :
    (TypeScope.interfaceHead.matchesFrom before pre.length (texts ds tail)).foldl
      (TypeScope.addInterface (pre ++ texts ds tail)) start =
        ds.foldl (fun s d => s.insert d.name d.decl) start := by
  induction ds generalizing before pre start with
  | nil =>
    rw [texts, List.foldr_nil, Pattern.matchesFrom_eq_nil h fun _ _ => rfl]
    rfl
  | cons d ds ih =>
    have htext : texts (d :: ds) tail = d.head.text ++ (d.inside ++ texts ds tail) := by
      simp [texts, text]
    have hlast : d.head.text.getLast?.or before = some '\x7b' := by
      rw [InterfaceHead.text, ← List.append_assoc, List.getLast?_concat]
      rfl
    have hne : d.head.text ≠ [] := by simp [InterfaceHead.text]
    have hlen : pre.length + d.head.text.length + d.inside.length = (pre ++ d.text).length := by
      simp [text, Nat.add_assoc]
    have hrest := ih h.2.2 (pre ++ d.text) (start.insert d.name d.decl)
    rw [htext, Pattern.matchesFrom_hit hne (d.head.matchAt?_text _ _ _), hlast,
      Pattern.matchesFrom_miss h.2.1, hlen, List.foldl_cons, List.foldl_cons, ← hrest]
    have hadd := addInterface_text h.1 pre (texts ds tail) start
    rw [text, List.append_assoc] at hadd
    rw [hadd, text]
    simp

variable {front : List Char} {ds : List Declaration} {tail : List Char}

theorem texts_append (ds : List Declaration) (tail : List Char) :
    texts ds tail = texts ds [] ++ tail := by
  induction ds with
  | nil => rfl
  | cons d ds ih =>
    rw [texts, List.foldr_cons, ← texts, ih, ← List.append_assoc]
    rfl

/-- Interfaces are read off their heads. -/
theorem foldl_findAll (hfront : TypeScope.interfaceHead.Misses none front (texts ds tail))
    (h : Apart front.getLast? ds tail) :
    (TypeScope.interfaceHead.findAll (front ++ texts ds tail)).foldl
      (TypeScope.addInterface (front ++ texts ds tail)) {} = scope ds := by
  have hmiss := Pattern.matchesFrom_miss hfront 0
  rw [Option.or_none, Nat.zero_add] at hmiss
  have hall : TypeScope.interfaceHead.findAll (front ++ texts ds tail) =
      TypeScope.interfaceHead.matchesFrom none 0 (front ++ texts ds tail) := rfl
  rw [hall, hmiss]
  exact foldl_addInterface h front {}

/-- Interfaces alone. -/
theorem parse_interfaces (hfront : TypeScope.interfaceHead.Misses none front (texts ds []))
    (h : Apart front.getLast? ds [])
    (halias : TypeScope.aliasHead.findAll (front ++ texts ds []) = []) :
    TypeScope.parse (front ++ texts ds []) = scope ds := by
  rw [TypeScope.parse, halias, foldl_findAll hfront h]
  rfl

end Declaration

/-- An alias as it stands in a text, with what follows. -/
structure Alias where
  head : Opening .type
  type : List Char
  ends : Member.stop? (type ++ [';']) = some type.length
  plain : ∀ c ∈ (trim type).getLast?, c ≠ ';'
  after : List Char

namespace Alias

def inside (a : Alias) : List Char := a.type ++ ';' :: a.after

def text (a : Alias) : List Char := (a.head.text ++ ['=']) ++ a.inside

def name (a : Alias) : String := String.ofList a.head.name

/-- An alias that is found is entered with what stands behind its sign. -/
theorem addAlias_text (a : Alias) (pre : List Char) (scope : TypeScope) :
    scope.addAlias (pre ++ a.text)
      ⟨pre.length, pre.length + (a.head.text ++ ['=']).length, a.head.captures pre.length []⟩ =
        scope.insert a.name (.synonym (trim a.type)) := by
  have hname := a.head.slice_name pre (['='] ++ a.inside)
  rw [List.singleton_append] at hname
  have hdrop : (pre ++ a.text).drop (pre.length + (a.head.text ++ ['=']).length) = a.inside := by
    rw [text, ← List.append_assoc, ← List.length_append, List.drop_left]
  have hstop : Member.stop? a.inside = some a.type.length :=
    Member.stop?_append a.ends fun hb => absurd hb (by decide)
  have htake : a.inside.take a.type.length = a.type := List.take_left
  have hlast : (trim a.type).reverse.dropWhile (· == ';') = (trim a.type).reverse := by
    cases hr : (trim a.type).reverse with
    | nil => rfl
    | cons c r =>
      have hc : c ≠ ';' := by
        refine a.plain c ?_
        rw [← List.head?_reverse, hr]
        rfl
      simp [hc]
  rw [TypeScope.addAlias, hdrop, hstop, Option.getD_some, htake, hlast, List.reverse_reverse,
    (trimmed_trim _).trim_eq]
  simp [Match.text, Match.text?, Match.span?, Opening.captures, text, name, hname]

/-- Interfaces and an alias behind them. -/
theorem parse_texts {front : List Char} {ds : List Declaration} (a : Alias)
    (hfront : TypeScope.interfaceHead.Misses none front (Declaration.texts ds a.text))
    (h : Declaration.Apart front.getLast? ds a.text)
    (hbefore : TypeScope.aliasHead.Misses none (front ++ Declaration.texts ds []) a.text)
    (hinside : TypeScope.aliasHead.Misses (some '=') a.inside []) 
    (hedge : ∀ c ∈ (front ++ Declaration.texts ds []).getLast?, isWord c = false) :
    TypeScope.parse (front ++ Declaration.texts ds a.text) =
      (Declaration.scope ds).insert a.name (.synonym (trim a.type)) := by
  let pre := front ++ Declaration.texts ds []
  have htext : front ++ Declaration.texts ds a.text = pre ++ a.text := by
    rw [Declaration.texts_append, ← List.append_assoc]
  have hlast : (a.head.text ++ ['=']).getLast?.or (pre.getLast?.or none) = some '=' := by
    rw [List.getLast?_concat]
    rfl
  have hhit : TypeScope.aliasHead.findAll (pre ++ a.text) =
      [⟨pre.length, pre.length + (a.head.text ++ ['=']).length, a.head.captures pre.length []⟩] := by
    have hall : TypeScope.aliasHead.findAll (pre ++ a.text) =
        TypeScope.aliasHead.matchesFrom none 0 (pre ++ a.text) := rfl
    have hlastOr : ∀ c ∈ pre.getLast?.or none, isWord c = false := by rwa [Option.or_none]
    have hmatch := a.head.matchAt?_alias hlastOr (0 + pre.length) a.inside
    rw [hall, Pattern.matchesFrom_miss hbefore, text, Pattern.matchesFrom_hit (by simp) hmatch, hlast,
      Pattern.matchesFrom_eq_nil hinside Keyword.matchAt?_alias_nil, Nat.zero_add]
  rw [TypeScope.parse, htext, hhit, ← htext, Declaration.foldl_findAll hfront h, htext,
    List.foldl_cons, addAlias_text]
  rfl

end Alias

end JsxToJinja
