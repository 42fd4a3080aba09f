import JsxToJinja.Proofs.Content.Blocks

/-! Reading of statements that give a variable elements under conditions. The binding of the variable
follows its chains one by one, and selects what the variable holds unless a condition is met behind
one that was met before. -/
namespace JsxToJinja
open JsxToJinja.Text JsxToJinja.Code JsxToJinja.Markup

namespace Bindings

/-! ### Chains -/

section
variable {x : List Char} (hx : isIdentifier x = true) {before : Option Char} {rest : List Char}
include hx

/-- No statement begins in a block. -/
theorem Keyed.misses_block {q : Pattern} {front : List Char → Prop} (hq : Keyed q front) (b : Block) :
    q.Misses before (b.print x Value.masked) rest := by
  rw [Block.print, Block.inner]
  cases b.assigned with
  | none =>
    have hsigns : ∀ c ∈ '\x7b' :: (b.lead.chars ++ ['\x7d']), isIdentifierStart c = false := by
      simp only [List.mem_cons, List.mem_append, List.not_mem_nil, or_false]
      rintro c (rfl | hc | rfl)
      · decide
      · exact not_start_of_isBlank (b.lead.blank c hc)
      · decide
    exact hq.misses_signs hsigns
  | some a =>
    let back := '=' :: (a.after.chars ++ (a.value.masked ++
      (a.close.chars ++ ';' :: (a.trail.chars ++ ['\x7d']))))
    have hback : ∀ c ∈ back, isIdentifierStart c = false := by
      simp only [back, List.mem_cons, List.mem_append, List.not_mem_nil, or_false]
      rintro c (rfl | hc | hc | hc | rfl | hc | rfl)
      · decide
      · exact not_start_of_isBlank (a.after.blank c hc)
      · exact not_start_of_isBlank (a.value.blank_masked c hc)
      · exact not_start_of_isBlank (a.close.blank c hc)
      · decide
      · exact not_start_of_isBlank (a.trail.blank c hc)
      · decide
    have hsplit : '\x7b' :: (b.lead.chars ++ ((some a).elim [] (Assigned.print x Value.masked) ++
        ['\x7d'])) = ('\x7b' :: b.lead.chars) ++ ((x ++ a.before.chars) ++ back) := by
      simp [Assigned.print, back]
    have hname : q.Misses (('\x7b' :: b.lead.chars).getLast?.or before) (x ++ a.before.chars)
        (back ++ rest) := hq.misses_name hx a.before.blank (by simp)
    rw [hsplit]
    exact (hq.misses_signs (not_start_of_mem (by decide) b.lead.blank)).append
      (hname.append (hq.misses_signs hback))

theorem Keyed.misses_arm {q : Pattern} {front : List Char → Prop} (hq : Keyed q front) (a : Arm)
    (ha : q.test a.guard.code = false) :
    q.Misses (some '(') (a.guard.code ++ ')' :: (a.lead.chars ++ a.block.print x Value.masked))
      rest := by
  have hclose : ∀ c ∈ ')' :: a.lead.chars, isIdentifierStart c = false :=
    not_start_of_mem (by decide) a.lead.blank
  have hbehind : q.Misses (a.guard.code.getLast?.or (some '('))
      ((')' :: a.lead.chars) ++ a.block.print x Value.masked) rest :=
    (hq.misses_signs hclose).append (hq.misses_block hx a.block)
  exact (hq.misses_code ha).append hbehind

omit hx in
theorem getLast?_block (b : Block) (w : List Char) :
    (w ++ b.print x Value.masked).getLast? = some '\x7d' := by
  have hsplit : w ++ b.print x Value.masked =
      (w ++ '\x7b' :: (b.lead.chars ++ b.inner x Value.masked)) ++ ['\x7d'] := by simp [Block.print]
  rw [hsplit, List.getLast?_concat]

/-- The head of an arm is the one condition found in it. -/
theorem matchesFrom_arm (hb : before.any isWord = false) (a : Arm) (i : Nat) :
    ifHead.matchesFrom before i (a.print x Value.masked ++ rest) =
      ⟨i, i + (a.gap.chars.length + 3), []⟩ ::
        ifHead.matchesFrom (some '\x7d') (i + (a.print x Value.text).length) rest := by
  let front := "if".toList ++ (a.gap.chars ++ ['('])
  let back := a.guard.code ++ ')' :: (a.lead.chars ++ a.block.print x Value.masked)
  have hif : "if".toList.length = 2 := rfl
  have hprint : a.print x Value.masked = front ++ back := by simp [Arm.print, front, back]
  have hwidth : front.length = a.gap.chars.length + 3 := by
    simp only [front, List.length_append, List.length_singleton]
    omega
  have hhit : ifHead.matchAt? ⟨before, i, front ++ (back ++ rest)⟩ = some ⟨i, i + front.length, []⟩ := by
    have hmatch := matchAt?_ifHead hb i a.gap.blank (back ++ rest)
    rw [hwidth, ← hmatch]
    simp [front]
  have hback : ifHead.Misses (some '(') back rest := keyed_ifHead.misses_arm hx a a.guard.noIf
  have hfront : front.getLast?.or before = some '(' := by
    have hsplit : front = ("if".toList ++ a.gap.chars) ++ ['('] := by simp [front]
    rw [hsplit, List.getLast?_concat]
    rfl
  have hlast : back.getLast?.or (some '(') = some '\x7d' := by
    have hsplit : back = (a.guard.code ++ ')' :: a.lead.chars) ++ a.block.print x Value.masked := by
      simp [back]
    rw [hsplit, getLast?_block]
    rfl
  have hlength : i + front.length + back.length = i + (a.print x Value.text).length := by
    have hsame := (a.written hx).length_eq
    rw [hprint, List.length_append] at hsame
    omega
  rw [hprint, List.append_assoc, Pattern.matchesFrom_hit (by simp [front]) hhit, hfront,
    Pattern.matchesFrom_miss hback, hlast, hlength, hwidth]

omit hx in
theorem Chain.head (k : Chain) (write : Value → List Char) :
    ∃ g r, Blank g ∧ k.print x write = "if".toList ++ (g ++ '(' :: r) := by
  cases k with
  | last a => exact ⟨a.gap.chars, _, a.gap.blank, rfl⟩
  | otherwise a _ _ b => exact ⟨a.gap.chars, _, a.gap.blank, by simp [Chain.print, Arm.print]; rfl⟩
  | elseIf a _ _ _ rest =>
    exact ⟨a.gap.chars, _, a.gap.blank, by simp [Chain.print, Arm.print]; rfl⟩

omit hx in
theorem not_isWord_of_mem_getLast? {g : Gap} (hg : g.chars ≠ []) (before : Option Char) :
    (g.chars.getLast?.or before).any isWord = false := by
  cases hc : g.chars.getLast? with
  | none => exact absurd (List.getLast?_eq_none_iff.1 hc) hg
  | some c => exact not_isWord_of_isBlank (g.blank c (List.mem_of_mem_getLast? hc))

section
variable {p : Preamble} {i : Nat} {m : List Char} {gap after : Gap}

omit hx in
/-- The body of an `else` is the block behind it. -/
theorem elseBody?_block {b : Block} (h : p.masked.drop i = gap.chars ++ ("else".toList ++
    (after.chars ++ (b.print x Value.masked ++ m)))) :
    elseBody? p i = some (i + (gap.chars ++ ("else".toList ++ after.chars)).length,
      bodyStop p (i + (gap.chars ++ ("else".toList ++ after.chars)).length)) := by
  have hedge : ∀ c ∈ (after.chars ++ (b.print x Value.masked ++ m)).head?, isWord c = false := by
    intro c hc
    have := not_word_after after.blank (d := '\x7b') (by decide) _ c hc
    exact (Bool.or_eq_false_iff.1 this).1
  have hopen : ∀ c ∈ (b.print x Value.masked ++ m).head?, isBlank c = false := by
    simp only [Block.print, List.cons_append, List.head?_cons, Option.mem_some_iff]
    rintro c rfl
    decide
  have hif : ifHead.matchAt? (Cursor.ofText (b.print x Value.masked ++ m)) = none := by
    refine fronted_ifHead.matchAt?_eq_none ?_
    rintro _ ⟨g, hg, rfl⟩ hpre
    simp [Block.print] at hpre
  rw [elseBody?_eq hedge hopen h, hif]
  rfl

omit hx in
/-- An `else if` has no body of its own. -/
theorem elseBody?_chain {k : Chain} (hafter : after.chars ≠ [])
    (h : p.masked.drop i = gap.chars ++ ("else".toList ++
      (after.chars ++ (k.print x Value.masked ++ m)))) : elseBody? p i = none := by
  obtain ⟨g, r, hg, hk⟩ := Chain.head (x := x) k Value.masked
  have hedge : ∀ c ∈ (after.chars ++ (k.print x Value.masked ++ m)).head?, isWord c = false := by
    intro c hc
    obtain ⟨d, w, hd⟩ := List.exists_cons_of_ne_nil hafter
    rw [hd, List.cons_append, List.head?_cons, Option.mem_some_iff] at hc
    exact not_isWord_of_isBlank (after.blank c (by simp [hd, hc]))
  have hopen : ∀ c ∈ (k.print x Value.masked ++ m).head?, isBlank c = false := by
    intro c hc
    rw [hk] at hc
    obtain rfl : 'i' = c := by simpa using hc
    decide
  have hif : (ifHead.matchAt? (Cursor.ofText (k.print x Value.masked ++ m))).isSome = true := by
    have hnone : (none : Option Char).any isWord = false := rfl
    have hmatch := matchAt?_ifHead hnone 0 hg (r ++ m)
    have htext : k.print x Value.masked ++ m = "if".toList ++ (g ++ '(' :: (r ++ m)) := by simp [hk]
    rw [htext, Cursor.ofText, hmatch]
    rfl
  rw [elseBody?_eq hedge hopen h, if_pos hif]

omit hx in
/-- No condition begins in an `else`. -/
theorem matchesFrom_else :
    ifHead.matchesFrom (some '\x7d') i (gap.chars ++ ("else".toList ++ (after.chars ++ m))) =
      ifHead.matchesFrom (after.chars.getLast?.or (some 'e'))
        (i + (gap.chars ++ ("else".toList ++ after.chars)).length) m := by
  have hmiss : ifHead.Misses (some '\x7d') (gap.chars ++ ("else".toList ++ after.chars)) m := by
    apply misses_ifHead
    have helse : 'i' ∉ "else".toList := by decide
    simp only [List.mem_append, not_or]
    exact ⟨notMem_of_blank gap.blank (by decide), helse, notMem_of_blank after.blank (by decide)⟩
  have hsplit : gap.chars ++ ("else".toList ++ (after.chars ++ m)) =
      (gap.chars ++ ("else".toList ++ after.chars)) ++ m := by simp
  have hlast : (gap.chars ++ ("else".toList ++ after.chars)).getLast?.or (some '\x7d') =
      after.chars.getLast?.or (some 'e') := by
    rw [← getLast?_append_or, ← getLast?_append_or]
    rfl
  rw [hsplit, Pattern.matchesFrom_miss hmiss, hlast]

end

/-- What follows a chain does not go on with it. -/
def Apart (m : List Char) : Prop :=
  ∃ g r, m = g ++ r ∧ Blank g ∧ ∀ c ∈ r.head?, isBlank c = false ∧ c ≠ 'e'

/-- A chain is taken into account, condition by condition. -/
theorem foldlM_chain {p : Preamble} {t m : List Char} (hm : Apart m) (k : Chain) {s : Scope}
    {q : Merge} (hs : s.Holds x q) {before : Option Char} (hb : before.any isWord = false) {i : Nat}
    (h : p.Stands i (k.print x Value.text ++ t) (k.print x Value.masked ++ m)) :
    ∃ s' : Scope, s'.Holds x (q.withChain k) ∧
      ((ifHead.matchesFrom before i (k.print x Value.masked ++ m)).foldlM (conditional p) s).value =
        ((ifHead.matchesFrom (some '\x7d') (i + (k.print x Value.text).length) m).foldlM
          (conditional p) s').value := by
  induction k generalizing before i s q with
  | last a =>
    have harm : p.Stands i (a.print x Value.text ++ t) (a.print x Value.masked ++ m) := h
    have hbehind := harm.skip (a.written hx).length_eq
    obtain ⟨g, r, rfl, hg, hr⟩ := hm
    have hvalue := value_conditional hx s harm
    rw [elseBody?_eq_none hg hr hbehind.masked] at hvalue
    refine ⟨_, hs.under a.name a.block, ?_⟩
    rw [Chain.print, Chain.print, matchesFrom_arm hx hb, List.foldlM_cons, Reviewed.value_bind, hvalue]
  | otherwise a gap after b =>
    have harm : p.Stands i
        (a.print x Value.text ++ (gap.chars ++ ("else".toList ++
          (after.chars ++ (b.print x Value.text ++ t)))))
        (a.print x Value.masked ++ (gap.chars ++ ("else".toList ++
          (after.chars ++ (b.print x Value.masked ++ m))))) := by
      simpa [Chain.print] using h
    have hbehind := harm.skip (a.written hx).length_eq
    have hblock : p.Stands _ (b.print x Value.text ++ t) (b.print x Value.masked ++ m) :=
      Preamble.Stands.skip (u := gap.chars ++ ("else".toList ++ after.chars))
        ⟨by simpa using hbehind.text, by simpa using hbehind.masked⟩ rfl
    have hvalue := value_conditional hx s harm
    rw [elseBody?_block hbehind.masked] at hvalue
    simp only [value_assignments hx b hblock] at hvalue
    refine ⟨_, (hs.under a.name a.block).underElse a.name b, ?_⟩
    have htext : (Chain.otherwise a gap after b).print x Value.masked ++ m =
        a.print x Value.masked ++ (gap.chars ++ ("else".toList ++
          (after.chars ++ (b.print x Value.masked ++ m)))) := by simp [Chain.print]
    have hplace : i + (a.print x Value.text).length +
        (gap.chars ++ ("else".toList ++ after.chars)).length + (b.print x Value.masked).length =
        i + ((Chain.otherwise a gap after b).print x Value.text).length := by
      rw [Chain.print, (b.written hx).length_eq]
      simp only [List.length_append]
      omega
    have hlast (c : Option Char) : (b.print x Value.masked).getLast?.or c = some '\x7d' := by
      rw [← List.nil_append (b.print x Value.masked), getLast?_block]
      rfl
    rw [htext, matchesFrom_arm hx hb, List.foldlM_cons, Reviewed.value_bind, hvalue, matchesFrom_else,
      Pattern.matchesFrom_miss (keyed_ifHead.misses_block hx b), hplace, hlast]
  | elseIf a gap after apart rest ih =>
    have harm : p.Stands i
        (a.print x Value.text ++ (gap.chars ++ ("else".toList ++
          (after.chars ++ (rest.print x Value.text ++ t)))))
        (a.print x Value.masked ++ (gap.chars ++ ("else".toList ++
          (after.chars ++ (rest.print x Value.masked ++ m))))) := by
      simpa [Chain.print] using h
    have hbehind := harm.skip (a.written hx).length_eq
    have hchain : p.Stands _ (rest.print x Value.text ++ t) (rest.print x Value.masked ++ m) :=
      Preamble.Stands.skip (u := gap.chars ++ ("else".toList ++ after.chars))
        ⟨by simpa using hbehind.text, by simpa using hbehind.masked⟩ rfl
    have hvalue := value_conditional hx s harm
    rw [elseBody?_chain apart hbehind.masked] at hvalue
    obtain ⟨s', hs', hrest⟩ := ih (hs.under a.name a.block) (not_isWord_of_mem_getLast? apart (some 'e')) hchain
    refine ⟨s', hs', ?_⟩
    have htext : (Chain.elseIf a gap after apart rest).print x Value.masked ++ m =
        a.print x Value.masked ++ (gap.chars ++ ("else".toList ++
          (after.chars ++ (rest.print x Value.masked ++ m)))) := by simp [Chain.print]
    have hplace : i + (a.print x Value.text).length +
        (gap.chars ++ ("else".toList ++ after.chars)).length + (rest.print x Value.text).length =
        i + ((Chain.elseIf a gap after apart rest).print x Value.text).length := by
      rw [Chain.print]
      simp only [List.length_append]
      omega
    rw [htext, matchesFrom_arm hx hb, List.foldlM_cons, Reviewed.value_bind, hvalue, matchesFrom_else,
      hrest, hplace]

omit hx in
theorem apart_chainsText (ks : List (Gap × Chain)) (trail : Gap) :
    Apart (chainsText x Value.masked ks ++ trail.chars) := by
  cases ks with
  | nil => exact ⟨trail.chars, [], by simp [chainsText], trail.blank, by simp⟩
  | cons k ks =>
    obtain ⟨g, r, hg, hk⟩ := Chain.head (x := x) k.2 Value.masked
    refine ⟨k.1.chars, k.2.print x Value.masked ++ (chainsText x Value.masked ks ++ trail.chars),
      by simp [chainsText], k.1.blank, ?_⟩
    intro c hc
    rw [hk] at hc
    obtain rfl : 'i' = c := by simpa using hc
    decide

/-- Chain by chain, all are taken into account. -/
theorem foldlM_chains {p : Preamble} (ks : List (Gap × Chain)) (trail : Gap) {s : Scope} {q : Merge}
    (hs : s.Holds x q) {before : Option Char} (hb : before.any isWord = false) {i : Nat}
    (h : p.Stands i (chainsText x Value.text ks ++ trail.chars)
      (chainsText x Value.masked ks ++ trail.chars)) :
    (((ifHead.matchesFrom before i (chainsText x Value.masked ks ++ trail.chars)).foldlM
      (conditional p) s).value).Holds x (ks.foldl (fun m k => m.withChain k.2) q) := by
  induction ks generalizing before i s q with
  | nil =>
    have hnone : ifHead.matchesFrom before i trail.chars = [] :=
      Pattern.matchesFrom_eq_nil (misses_ifHead (notMem_of_blank trail.blank (by decide)))
        keyed_ifHead.matchAt?_nil i
    have hnil : chainsText x Value.masked [] ++ trail.chars = trail.chars := rfl
    rw [hnil, hnone]
    exact hs
  | cons k ks ih =>
    have htext (write : Value → List Char) : chainsText x write (k :: ks) ++ trail.chars =
        k.1.chars ++ (k.2.print x write ++ (chainsText x write ks ++ trail.chars)) := by
      simp [chainsText]
    rw [htext, htext] at h
    have hchain := h.skip rfl
    have hgap : ifHead.Misses before k.1.chars
        (k.2.print x Value.masked ++ (chainsText x Value.masked ks ++ trail.chars)) :=
      misses_ifHead (notMem_of_blank k.1.blank (by decide))
    have hbefore : (k.1.chars.getLast?.or before).any isWord = false := by
      by_cases hk : k.1.chars = []
      · rw [hk]
        exact hb
      · exact not_isWord_of_mem_getLast? hk before
    obtain ⟨s', hs', hrest⟩ := foldlM_chain hx (apart_chainsText ks trail) k.2 hs hbefore hchain
    rw [htext, Pattern.matchesFrom_miss hgap, hrest]
    exact ih hs' (by decide) (hchain.skip (k.2.written hx).length_eq)

omit hx in
theorem Keyed.misses_gap {q : Pattern} {front : List Char → Prop} (hq : Keyed q front) (g : Gap) :
    q.Misses before g.chars rest :=
  hq.misses_signs fun c hc => not_start_of_isBlank (g.blank c hc)

/-- No declaration begins in an arm. -/
theorem misses_arm (a : Arm) : declaration.Misses before (a.print x Value.masked) rest := by
  let front := "if".toList ++ (a.gap.chars ++ ['('])
  let back := a.guard.code ++ ')' :: (a.lead.chars ++ a.block.print x Value.masked)
  have hprint : a.print x Value.masked = front ++ back := by simp [Arm.print, front, back]
  have hletters : ∀ c ∈ ['c', 'l', 'v'], isBlank c = false ∧ c ∉ "if".toList ∧ c ≠ '(' := by decide
  have hfront : declaration.Misses before front (back ++ rest) := by
    refine misses_declaration fun c hc => ?_
    obtain ⟨hblank, hif, hopen⟩ := hletters c hc
    simp only [front, List.mem_append, List.mem_singleton, not_or]
    exact ⟨hif, notMem_of_blank a.gap.blank hblank, hopen⟩
  have hlast : front.getLast?.or before = some '(' := by
    have hsplit : front = ("if".toList ++ a.gap.chars) ++ ['('] := by simp [front]
    rw [hsplit, List.getLast?_concat]
    rfl
  rw [hprint]
  refine hfront.append ?_
  rw [hlast]
  exact keyed_declaration.misses_arm hx a a.guard.noDeclaration

omit hx in
theorem misses_elseText (gap after : Gap) {w : List Char}
    (hw : ∀ before, declaration.Misses before w rest) :
    declaration.Misses before (gap.chars ++ ("else".toList ++ (after.chars ++ w))) rest :=
  (keyed_declaration.misses_gap gap).append
    (misses_else.append ((keyed_declaration.misses_gap after).append (hw _)))

/-- No declaration begins in a chain. -/
theorem misses_chain (k : Chain) : declaration.Misses before (k.print x Value.masked) rest := by
  induction k generalizing before with
  | last a => exact misses_arm hx a
  | otherwise a gap after b =>
    exact (misses_arm hx a).append
      (misses_elseText gap after fun _ => keyed_declaration.misses_block hx b)
  | elseIf a gap after apart rest ih =>
    exact (misses_arm hx a).append (misses_elseText gap after fun _ => ih)

theorem misses_chainsText (ks : List (Gap × Chain)) :
    declaration.Misses before (chainsText x Value.masked ks) rest := by
  induction ks generalizing before with
  | nil => exact keyed_declaration.misses_signs (by simp [chainsText])
  | cons k ks ih =>
    exact ((keyed_declaration.misses_gap k.1).append (misses_chain hx k.2)).append ih

end

end Bindings

/-! ### Scripts -/

namespace Script
open Bindings

variable (s : Script)

def preamble : Preamble := ⟨s.text, s.print Value.masked⟩

/-- Everything behind the name and its gap, up to the semicolon, is a sign or blank. -/
theorem signs_initial : ∀ c ∈ initialText Value.masked s.initial ++ [';'],
    isIdentifierStart c = false := by
  cases s.initial with
  | none => decide
  | some a =>
    simp only [initialText, Option.elim, List.mem_append, List.mem_cons, List.not_mem_nil, or_false]
    rintro c ((rfl | hc | hc | hc) | rfl)
    · decide
    · exact not_start_of_isBlank (a.after.blank c hc)
    · exact not_start_of_isBlank (a.value.blank_masked c hc)
    · exact not_start_of_isBlank (a.close.blank c hc)
    · decide

/-- A sign stands behind the name and its gap. -/
theorem sign_initial : ∃ d r, d ∈ [')', '=', ';'] ∧
    initialText Value.masked s.initial ++ [';'] = d :: r := by
  cases s.initial with
  | none => exact ⟨';', [], by simp, rfl⟩
  | some a => exact ⟨'=', _, by simp, rfl⟩

/-- No condition begins in the declaration. -/
theorem misses_head {rest : List Char} : ifHead.Misses none (s.head Value.masked) rest := by
  have hlet : 'i' ∉ "let".toList := by decide
  have hsplit : s.head Value.masked = (s.lead.chars ++ ("let".toList ++ s.gap.chars)) ++
      ((s.name ++ s.before.chars) ++ (initialText Value.masked s.initial ++ [';'])) := by
    simp [Script.head]
  have hfront : 'i' ∉ s.lead.chars ++ ("let".toList ++ s.gap.chars) := by
    simp only [List.mem_append, not_or]
    exact ⟨notMem_of_blank s.lead.blank (by decide), hlet, notMem_of_blank s.gap.blank (by decide)⟩
  obtain ⟨d, r, hd, hsign⟩ := s.sign_initial
  have hname (before : Option Char) : ifHead.Misses before (s.name ++ s.before.chars)
      ((initialText Value.masked s.initial ++ [';']) ++ rest) := by
    rw [hsign]
    exact keyed_ifHead.misses_name s.isName s.before.blank hd
  rw [hsplit]
  exact (misses_ifHead hfront).append
    ((hname _).append (keyed_ifHead.misses_signs s.signs_initial))

theorem stands_chains : s.preamble.Stands (s.head Value.text).length
    (chainsText s.name Value.text s.chains ++ s.trail.chars)
    (chainsText s.name Value.masked s.chains ++ s.trail.chars) := by
  have h : s.preamble.Stands 0 (s.print Value.text) (s.print Value.masked) := ⟨rfl, rfl⟩
  have hskip := Preamble.Stands.skip h s.written_head.length_eq
  rwa [Nat.zero_add] at hskip

/-- The conditions found are those of the chains. -/
theorem findAll_ifHead : ifHead.findAll (s.print Value.masked) =
    ifHead.matchesFrom (some ';') (s.head Value.text).length
      (chainsText s.name Value.masked s.chains ++ s.trail.chars) := by
  have hlast : (s.head Value.masked).getLast?.or none = some ';' := by
    have hsplit : s.head Value.masked = (s.lead.chars ++ ("let".toList ++ (s.gap.chars ++
        (s.name ++ (s.before.chars ++ initialText Value.masked s.initial))))) ++ [';'] := by
      simp [Script.head]
    rw [hsplit, List.getLast?_concat]
    rfl
  rw [findAll_eq, Script.print, Pattern.matchesFrom_miss s.misses_head, hlast, Nat.zero_add,
    s.written_head.length_eq]

/-- Behind the name of the declaration no other declaration begins. -/
theorem misses_behind {before : Option Char} {w : List Char}
    (hw : ∀ c ∈ w, isIdentifierStart c = false) :
    declaration.Misses before
      (w ++ (chainsText s.name Value.masked s.chains ++ s.trail.chars)) [] :=
  (keyed_declaration.misses_signs hw).append
    ((misses_chainsText s.isName s.chains).append (keyed_declaration.misses_gap s.trail))

def nameAt : Nat := s.lead.chars.length + 3 + s.gap.chars.length

/-- At its place in the masked text the declared name stands. -/
theorem slice_name : slice (s.print Value.masked) s.nameAt (s.nameAt + s.name.length) = s.name := by
  have hsplit : s.print Value.masked = (s.lead.chars ++ ("let".toList ++ s.gap.chars)) ++
      (s.name ++ (s.before.chars ++ (initialText Value.masked s.initial ++ ';' ::
        (chainsText s.name Value.masked s.chains ++ s.trail.chars)))) := by
    simp [Script.print, Script.head]
  have hplace : s.nameAt = (s.lead.chars ++ ("let".toList ++ s.gap.chars)).length := by
    have hlet : "let".toList.length = 3 := rfl
    simp only [nameAt, List.length_append]
    omega
  rw [hsplit, hplace, slice_append_left]

/-- The declaration is the first one found, and the only one. -/
theorem findAll_declaration {w rest : List Char} {caps : Captures}
    (htext : s.print Value.masked = s.lead.chars ++ (w ++ rest)) (hw : w ≠ [])
    (hhit : ∀ before : Option Char, before.any isWord = false →
      declaration.matchAt? ⟨before, s.lead.chars.length, w ++ rest⟩ =
        some ⟨s.lead.chars.length, s.lead.chars.length + w.length, caps⟩)
    (hrest : ∀ before, declaration.Misses before rest []) :
    declaration.findAll (s.print Value.masked) =
      [⟨s.lead.chars.length, s.lead.chars.length + w.length, caps⟩] := by
  have hbefore : (s.lead.chars.getLast?.or none).any isWord = false := by
    by_cases hlead : s.lead.chars = []
    · rw [hlead]
      rfl
    · exact not_isWord_of_mem_getLast? hlead none
  rw [findAll_eq, htext, Pattern.matchesFrom_miss (keyed_declaration.misses_gap s.lead), Nat.zero_add,
    Pattern.matchesFrom_hit hw (hhit _ hbefore),
    Pattern.matchesFrom_eq_nil (hrest _) keyed_declaration.matchAt?_nil]

variable {s}

/-- A declaration without a value is found once, with its name captured. -/
theorem findAll_bare (h : s.initial = none) :
    declaration.findAll (s.print Value.masked) =
      [⟨s.lead.chars.length, s.nameAt + s.name.length + s.before.chars.length,
        [(2, s.nameAt, s.nameAt + s.name.length)]⟩] := by
  let w := "let".toList ++ (s.gap.chars ++ (s.name ++ s.before.chars))
  let rest := [';'] ++ (chainsText s.name Value.masked s.chains ++ s.trail.chars)
  have htext : s.print Value.masked = s.lead.chars ++ (w ++ rest) := by
    simp [Script.print, Script.head, initialText, h, w, rest]
  have hwidth : s.lead.chars.length + w.length =
      s.nameAt + s.name.length + s.before.chars.length := by
    have hlet : "let".toList.length = 3 := rfl
    simp only [w, nameAt, List.length_append]
    omega
  rw [← hwidth]
  refine s.findAll_declaration htext (by simp [w]) (fun before hb => ?_) fun before =>
    s.misses_behind (by decide)
  have hmatch := matchAt?_bare hb s.gap.blank s.apart s.isName s.before.blank
    s.lead.chars.length (chainsText s.name Value.masked s.chains ++ s.trail.chars)
  rw [hwidth]
  simpa [w, rest, nameAt] using hmatch

/-- A declaration with a value is found once, its name and its sign captured. -/
theorem findAll_valued {a : Initial} (h : s.initial = some a) :
    declaration.findAll (s.print Value.masked) =
      [⟨s.lead.chars.length, s.nameAt + s.name.length + s.before.chars.length + 1,
        [(3, s.nameAt + s.name.length + s.before.chars.length,
            s.nameAt + s.name.length + s.before.chars.length + 1),
          (2, s.nameAt, s.nameAt + s.name.length)]⟩] := by
  let w := "let".toList ++ (s.gap.chars ++ (s.name ++ (s.before.chars ++ ['='])))
  let value := a.after.chars ++ (a.value.masked ++ (a.close.chars ++ [';']))
  let rest := value ++ (chainsText s.name Value.masked s.chains ++ s.trail.chars)
  have htext : s.print Value.masked = s.lead.chars ++ (w ++ rest) := by
    simp [Script.print, Script.head, initialText, h, w, rest, value]
  have hwidth : s.lead.chars.length + w.length =
      s.nameAt + s.name.length + s.before.chars.length + 1 := by
    have hlet : "let".toList.length = 3 := rfl
    simp only [w, nameAt, List.length_append, List.length_singleton]
    omega
  have hvalue : ∀ c ∈ value, isIdentifierStart c = false := by
    intro c hc
    apply s.signs_initial c
    simp only [h, initialText, Option.elim, List.cons_append, List.append_assoc]
    exact List.mem_cons_of_mem _ hc
  rw [← hwidth]
  refine s.findAll_declaration htext (by simp [w]) (fun before hb => ?_) fun before =>
    s.misses_behind hvalue
  have hmatch := matchAt?_valued hb s.gap.blank s.apart s.isName s.before.blank
    s.lead.chars.length rest
  rw [hwidth]
  simpa [w, nameAt] using hmatch

theorem stands_value {a : Initial} (h : s.initial = some a) :
    s.preamble.Stands (s.nameAt + s.name.length + s.before.chars.length + 1)
      (a.after.chars ++ (a.value.text ++ (a.close.chars ++ ';' ::
        (chainsText s.name Value.text s.chains ++ s.trail.chars))))
      (a.after.chars ++ (a.value.masked ++ (a.close.chars ++ ';' ::
        (chainsText s.name Value.masked s.chains ++ s.trail.chars)))) := by
  let w := s.lead.chars ++ ("let".toList ++ (s.gap.chars ++ (s.name ++ (s.before.chars ++ ['=']))))
  have hwidth : s.nameAt + s.name.length + s.before.chars.length + 1 = 0 + w.length := by
    have hlet : "let".toList.length = 3 := rfl
    simp only [w, nameAt, List.length_append, List.length_singleton]
    omega
  have hsplit (write : Value → List Char) : s.print write = w ++ (a.after.chars ++ (write a.value ++
      (a.close.chars ++ ';' :: (chainsText s.name write s.chains ++ s.trail.chars)))) := by
    simp [Script.print, Script.head, initialText, h, w]
  rw [hwidth]
  exact Preamble.Stands.skip ⟨hsplit Value.text, hsplit Value.masked⟩ rfl

variable (s)

/-- The declaration is taken into account. -/
theorem holds_declarations :
    (((declaration.findAll (s.print Value.masked)).foldlM (declare s.preamble) {}).value).Holds s.name
      ⟨[], s.initial.map Initial.value⟩ := by
  have hname := s.slice_name
  cases h : s.initial with
  | none =>
    have hscope : ((declaration.findAll (s.print Value.masked)).foldlM (declare s.preamble) {}).value =
        { declared := [String.ofList s.name] } := by
      rw [findAll_bare h]
      simp [declare, Match.span?, Match.text, Match.text?, preamble, hname]
    rw [hscope]
    exact ⟨by simp [Scope.knows], rfl⟩
  | some a =>
    obtain ⟨hstop, hvalue⟩ := (stands_value h).value_at
    obtain ⟨c, hc, -⟩ := a.value.contents_eq
    have hscope : ((declaration.findAll (s.print Value.masked)).foldlM (declare s.preamble) {}).value =
        { bound := Bindings.set [] (String.ofList s.name) c } := by
      rw [findAll_valued h]
      simp only [List.foldlM_cons, List.foldlM_nil, declare, hstop, Reviewed.value_bind, Match.span?,
        List.find?_cons, beq_self_eq_true, Option.map_some, Option.isNone_some, Bool.false_eq_true,
        if_false]
      rw [hvalue, hc]
      simp [Match.span?, Match.text, Match.text?, preamble, hname]
    have hset := get?_set_self [] (String.ofList s.name) c
    rw [hscope]
    refine ⟨by rw [Scope.knows, hset]; rfl, ?_⟩
    rw [hset]
    simp [Merge.content, hc]

/-- Reading the statements gives the binding that follows them chain by chain. -/
theorem get?_ofPreamble :
    (Bindings.ofPreamble s.text).value.get? (String.ofList s.name) = s.merge.content := by
  have hmask : mask s.text = s.print Value.masked := s.written.mask_eq
  have hvalue : (Bindings.ofPreamble s.text).value =
      ((ifHead.findAll (s.print Value.masked)).foldlM (conditional s.preamble)
        ((declaration.findAll (s.print Value.masked)).foldlM (declare s.preamble) {}).value).value.bound := by
    rw [Bindings.ofPreamble, hmask]
    rfl
  have hsign : (some ';').any isWord = false := by decide
  have hchains := foldlM_chains s.isName s.chains s.trail s.holds_declarations hsign s.stands_chains
  rw [hvalue, findAll_ifHead]
  exact hchains.content

end Script

/-! ### Names as conditions, and tags without properties -/

theorem Bindings.Keyed.test_name {q : Pattern} {front : List Char → Prop}
    (hq : Bindings.Keyed q front) {x : List Char} (hx : isIdentifier x = true) :
    q.test x = false := by
  rw [← Bool.not_eq_true, Pattern.test, Pattern.find?, Pattern.searchFrom_isSome]
  rintro ⟨u, v, rfl, hs⟩
  obtain ⟨-, a, ha, hpre⟩ := (hq.fronted _ _ _).1 hs
  refine hq.noName a ha (u ++ v) [] hx blank_nil ?_
  rw [List.append_nil]
  exact hpre.isInfix.trans (List.suffix_append u v).isInfix

def Guard.ofName (x : List Char) (hx : isIdentifier x = true) : Guard where
  code := x
  sealed := sealed_of_nameChars (fun _ hc => isIdentifierChar_of_mem hx hc) (by simp)
  noTag := by
    rintro u v rfl
    cases v with
    | nil => rfl
    | cons c v =>
      have hc : isIdentifierChar c = true := isIdentifierChar_of_mem hx (by simp)
      exact opensTag_of_ne (ne_of_isIdentifierChar hc (by decide)) v
  noIf := Bindings.keyed_ifHead.test_name hx
  noDeclaration := Bindings.keyed_declaration.test_name hx

def Markup.Value.ofName (name : List Char) (hn : IsName name)
    (ha : ∀ c ∈ name.head?, c.isAlpha = true) : Value :=
  .ofElement (.closed (.named hn ha (.done blank_nil)))

def Arm.ofName (x : List Char) (hx : isIdentifier x = true) (v : Value) : Arm :=
  ⟨.space, .ofName x hx, .space, .space, some ⟨v, .space, .space, .none, .space⟩⟩

def Script.ofChains (chains : List (Gap × Chain)) : Script :=
  ⟨.none, .space, by decide, ['x'], by decide, .none, none, chains, .none⟩

/-! ### References -/

namespace Script

/-- What a reference to the variable selects is what the variable holds after the statements. -/
theorem reference_selects_held_value {truth : String → Bool} {s : Script} (h : s.Settles truth) :
    ∃ r, Content.resolve (Bindings.ofPreamble s.text).value.get?
        (.reference (String.ofList s.name) none) = .reference (String.ofList s.name) r ∧
      selected truth r = shownOf (s.run truth) := by
  refine ⟨s.merge.content, ?_, ?_⟩
  · rw [Content.resolve, s.get?_ofPreamble]
  · rw [Merge.selected_content, select_merge h]

def tagA : Value := .ofName ['A'] ⟨by decide, by decide⟩ (by decide)

def tagB : Value := .ofName ['B'] ⟨by decide, by decide⟩ (by decide)

def chained : Script :=
  ofChains [(.space, .elseIf (.ofName ['a'] (by decide) tagA) .space .space (by decide)
    (.last (.ofName ['b'] (by decide) tagB)))]

theorem chained_reference_selects_second :
    ∃ r, Content.resolve (Bindings.ofPreamble
        "let x; if (a) \x7b x = <A/>; \x7d else if (b) \x7b x = <B/>; \x7d".toList).value.get?
        (.reference "x" none) = .reference "x" r ∧
      selected (· == "b") r = [.component ⟨"B", [], []⟩ []] := by
  have hsettles : chained.Settles (· == "b") := settles_of_full rfl rfl
  have htext : chained.text =
      "let x; if (a) \x7b x = <A/>; \x7d else if (b) \x7b x = <B/>; \x7d".toList := by decide
  obtain ⟨r, hr, hselected⟩ := reference_selects_held_value hsettles
  rw [htext] at hr
  exact ⟨r, hr, hselected⟩

def independent : Script :=
  ofChains [(.space, .last (.ofName ['a'] (by decide) tagA)),
    (.space, .last (.ofName ['b'] (by decide) tagB))]

/-- A condition of its own is tried behind the ones before it, though its assignment is the last one
made. -/
theorem independent_reference_selects_first :
    independent.text =
        "let x; if (a) \x7b x = <A/>; \x7d if (b) \x7b x = <B/>; \x7d".toList ∧
      (∃ r, Content.resolve (Bindings.ofPreamble independent.text).value.get?
          (.reference "x" none) = .reference "x" r ∧
        selected (fun _ => true) r = [.component ⟨"A", [], []⟩ []]) ∧
      shownOf (independent.run fun _ => true) = [.component ⟨"B", [], []⟩ []] := by
  refine ⟨by decide, ⟨independent.merge.content, ?_, ?_⟩, rfl⟩
  · rw [Content.resolve]
    exact congrArg (Content.reference "x") independent.get?_ofPreamble
  · rw [Merge.selected_content]
    rfl

end Script

end JsxToJinja
