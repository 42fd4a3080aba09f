import JsxToJinja.Content.Bindings
import JsxToJinja.Proofs.Markup.Masking

/-! Statements that declare a variable and give it elements under conditions: their text, what the
variable holds after them, and what a binding of the variable selects. -/
namespace JsxToJinja
open JsxToJinja.Text JsxToJinja.Code JsxToJinja.Markup

/-! ### Statements -/

/-- The code of a condition. It holds no element and no statement. -/
structure Guard where
  code : List Char
  sealed : Sealed [] code
  noTag : ∀ u v, code = u ++ v → opensTag v = false
  noIf : Bindings.ifHead.test code = false
  noDeclaration : Bindings.declaration.test code = false

def Guard.name (g : Guard) : String := String.ofList (stripProps (trim g.code))

/-- An element given to the variable, with the gaps around the sign, before the semicolon and behind
it. -/
structure Assigned where
  value : Value
  before : Gap
  after : Gap
  close : Gap
  trail : Gap

/-- A block that assigns the variable at most once. -/
structure Block where
  lead : Gap
  assigned : Option Assigned

def Block.value? (b : Block) : Option Value := b.assigned.map Assigned.value

/-- A condition and its block. -/
structure Arm where
  gap : Gap
  guard : Guard
  lead : Gap
  block : Block

/-- An `if` with all that hangs on it. -/
inductive Chain where
  | last (arm : Arm)
  | otherwise (arm : Arm) (before after : Gap) (block : Block)
  | elseIf (arm : Arm) (before after : Gap) (apart : after.chars ≠ []) (rest : Chain)

/-- The element a variable starts with, and the gaps around it. -/
structure Initial where
  value : Value
  after : Gap
  close : Gap

/-- A declaration and the chains behind it, with the gaps before them. -/
structure Script where
  lead : Gap
  gap : Gap
  apart : gap.chars ≠ []
  name : List Char
  isName : isIdentifier name = true
  before : Gap
  initial : Option Initial
  chains : List (Gap × Chain)
  trail : Gap

/-! ### Text -/

section
variable (x : List Char) (write : Value → List Char)

def Assigned.print (a : Assigned) : List Char :=
  x ++ (a.before.chars ++ '=' :: (a.after.chars ++ (write a.value ++
    (a.close.chars ++ ';' :: a.trail.chars))))

def Block.inner (b : Block) : List Char := b.assigned.elim [] (Assigned.print x write)

def Block.print (b : Block) : List Char := '\x7b' :: (b.lead.chars ++ (b.inner x write ++ ['\x7d']))

def Arm.print (a : Arm) : List Char :=
  "if".toList ++ (a.gap.chars ++ '(' :: (a.guard.code ++ ')' :: (a.lead.chars ++ a.block.print x write)))

def Chain.print : Chain → List Char
  | last a => a.print x write
  | otherwise a before after b =>
    a.print x write ++ (before.chars ++ ("else".toList ++ (after.chars ++ b.print x write)))
  | elseIf a before after _ rest =>
    a.print x write ++ (before.chars ++ ("else".toList ++ (after.chars ++ rest.print)))

def chainsText (ks : List (Gap × Chain)) : List Char :=
  ks.flatMap fun k => k.1.chars ++ k.2.print x write

def initialText (initial : Option Initial) : List Char :=
  initial.elim [] fun a => '=' :: (a.after.chars ++ (write a.value ++ a.close.chars))

end

def Script.head (write : Value → List Char) (s : Script) : List Char :=
  s.lead.chars ++ ("let".toList ++ (s.gap.chars ++ (s.name ++ (s.before.chars ++
    (initialText write s.initial ++ [';'])))))

def Script.print (write : Value → List Char) (s : Script) : List Char :=
  s.head write ++ (chainsText s.name write s.chains ++ s.trail.chars)

def Script.text (s : Script) : List Char := s.print Value.text

/-! ### Execution -/

namespace Arm

def name (a : Arm) : String := a.guard.name

def value? (a : Arm) : Option Value := a.block.value?

end Arm

/-- The variable after a chain: only the block that is run assigns it. -/
def Chain.run (truth : String → Bool) (held : Option Value) : Chain → Option Value
  | last a => if truth a.name then a.value?.or held else held
  | otherwise a _ _ b => if truth a.name then a.value?.or held else b.value?.or held
  | elseIf a _ _ _ rest => if truth a.name then a.value?.or held else rest.run truth held

/-- A chain that assigns nothing leaves what there was. -/
theorem Chain.run_eq (truth : String → Bool) (held : Option Value) (k : Chain) :
    k.run truth held = (k.run truth none).or held := by
  induction k with
  | last a => by_cases ha : truth a.name = true <;> simp [run, ha]
  | otherwise a before after b => by_cases ha : truth a.name = true <;> simp [run, ha]
  | elseIf a before after apart rest ih =>
    by_cases ha : truth a.name = true
    · simp [run, ha]
    · simpa [run, ha] using ih

def Script.run (truth : String → Bool) (s : Script) : Option Value :=
  s.chains.foldl (fun held k => k.2.run truth held) (s.initial.map Initial.value)

/-! ### Selection -/

def Markup.Value.contents (v : Value) : List Content :=
  (Content.ofOperand Content.ofExpression v.text).value

def shownOf (held : Option Value) : List Content := held.toList.flatMap Value.contents

/-- What a binding selects: the first branch whose condition holds, or else the branch without a
condition. -/
def selected (truth : String → Bool) : Option Content → List Content
  | none => []
  | some (.conditional c body) => if truth c then body else []
  | some (.branches bs) =>
    match bs.find? fun b => b.condition.any truth with
    | some b => b.body
    | none => ((bs.find? fun b => b.condition.isNone).map Branch.body).getD []
  | some c => [c]

/-- Conditions with what they select, in the order they are tried, and what is left without them. -/
structure Merge where
  arms : List (String × Option Value) := []
  fallback : Option Value := none

namespace Merge

def select (truth : String → Bool) (m : Merge) : Option Value :=
  match m.arms.find? fun a => truth a.1 with
  | some a => a.2
  | none => m.fallback

/-- An assignment under a condition is tried last. -/
def addArm (m : Merge) (c : String) (v : Value) : Merge := { m with arms := m.arms ++ [(c, some v)] }

/-- An assignment in the `else` of a condition. Without any branch the condition keeps what there
was. -/
def addElse (m : Merge) (c : String) (v : Value) : Merge :=
  if m.arms.isEmpty then ⟨[(c, m.fallback)], some v⟩ else { m with fallback := some v }

def branchesOf (arms : List (String × Option Value)) : List Branch :=
  arms.map fun a => .mk (some a.1) (shownOf a.2)

def content (m : Merge) : Option Content :=
  match m.arms, m.fallback with
  | [], f => f.bind (·.contents.head?)
  | [a], none => some (.conditional a.1 (shownOf a.2))
  | arms, none => some (.branches (branchesOf arms))
  | arms, some f => some (.branches (branchesOf arms ++ [.mk none f.contents]))

def withArm (m : Merge) (a : Arm) : Merge := a.value?.elim m (m.addArm a.name)

def withChain (m : Merge) : Chain → Merge
  | .last a => m.withArm a
  | .otherwise a _ _ b => b.value?.elim (m.withArm a) ((m.withArm a).addElse a.name)
  | .elseIf a _ _ _ rest => (m.withArm a).withChain rest

end Merge

def Script.merge (s : Script) : Merge :=
  s.chains.foldl (fun m k => m.withChain k.2) ⟨[], s.initial.map Initial.value⟩

/-! ### Where selection follows execution -/

namespace Chain

def assigns : Chain → Bool
  | last a => a.value?.isSome
  | otherwise a _ _ b => a.value?.isSome || b.value?.isSome
  | elseIf a _ _ _ rest => a.value?.isSome || rest.assigns

/-- The block that is run, if it assigns nothing, is not followed by one that does. -/
def gapless (truth : String → Bool) : Chain → Bool
  | last _ => true
  | otherwise a _ _ b => !truth a.name || a.value?.isSome || b.value?.isNone
  | elseIf a _ _ _ rest =>
    if truth a.name then a.value?.isSome || !rest.assigns else rest.gapless truth

def decides (truth : String → Bool) : Chain → Bool
  | last a => truth a.name && a.value?.isSome
  | otherwise a _ _ _ => truth a.name && a.value?.isSome
  | elseIf a _ _ _ rest => if truth a.name then a.value?.isSome else rest.decides truth

def isPair : Chain → Bool
  | otherwise _ _ _ _ => true
  | _ => false

end Chain

/-- Nothing is assigned behind an assignment under a condition, and no chain leaves a gap. Before any
assignment in a chain, an `if` with an `else` may leave one; nothing is assigned behind it then.
`armed` tells that some chain before has an assignment, and `decided` that a condition was met. -/
def settles (truth : String → Bool) : Bool → Bool → List Chain → Bool
  | _, _, [] => true
  | armed, true, k :: ks => (k.run truth none).isNone && settles truth armed true ks
  | armed, false, k :: ks =>
    if k.gapless truth then settles truth (armed || k.assigns) (k.decides truth) ks
    else !armed && k.isPair && settles truth true true ks

/-- A truth assignment at which selection follows execution. -/
def Script.Settles (truth : String → Bool) (s : Script) : Prop :=
  settles truth false false (s.chains.map Prod.snd) = true

namespace Merge

variable {truth : String → Bool} {m : Merge}

def decided (truth : String → Bool) (m : Merge) : Bool := m.arms.any fun a => truth a.1

theorem find?_of_undecided (h : m.decided truth = false) :
    m.arms.find? (fun a => truth a.1) = none := by
  rw [List.find?_eq_none]
  intro a ha
  simpa using List.any_eq_false.1 h a ha

theorem find?_of_decided (h : m.decided truth = true) :
    ∃ a, m.arms.find? (fun a => truth a.1) = some a := by
  obtain ⟨a, ha, ht⟩ := List.any_eq_true.1 h
  have hsome : (m.arms.find? fun a => truth a.1).isSome = true := List.find?_isSome.2 ⟨a, ha, ht⟩
  exact Option.isSome_iff_exists.1 hsome

theorem select_of_undecided (h : m.decided truth = false) : m.select truth = m.fallback := by
  rw [select, find?_of_undecided h]

theorem arms_ne_nil (h : m.decided truth = true) : m.arms.isEmpty = false := by
  obtain ⟨a, ha, -⟩ := List.any_eq_true.1 h
  simpa using List.ne_nil_of_mem ha

/-! What is decided stays so. -/

theorem kept_addArm (h : m.decided truth = true) (c : String) (v : Value) :
    (m.addArm c v).decided truth = true ∧ (m.addArm c v).select truth = m.select truth := by
  obtain ⟨a, ha⟩ := find?_of_decided h
  rw [decided] at h
  refine ⟨by simp [decided, addArm, h], ?_⟩
  simp [select, addArm, List.find?_append, ha]

theorem kept_addElse (h : m.decided truth = true) (c : String) (v : Value) :
    (m.addElse c v).decided truth = true ∧ (m.addElse c v).select truth = m.select truth := by
  obtain ⟨a, ha⟩ := find?_of_decided h
  rw [addElse, arms_ne_nil h]
  exact ⟨h, by simp [select, ha]⟩

theorem undecided_addElse (h : m.decided truth = false) {c : String} (hc : truth c = false) (v : Value) :
    (m.addElse c v).decided truth = false ∧ (m.addElse c v).select truth = some v := by
  have hd : (m.addElse c v).decided truth = false := by
    rw [addElse]
    split
    · simp [decided, hc]
    · exact h
  refine ⟨hd, ?_⟩
  rw [select_of_undecided hd, addElse]
  split <;> rfl

theorem kept_withArm (h : m.decided truth = true) (a : Arm) :
    (m.withArm a).decided truth = true ∧ (m.withArm a).select truth = m.select truth := by
  rw [withArm]
  cases a.value? with
  | none => exact ⟨h, rfl⟩
  | some v => exact kept_addArm h a.name v

theorem kept_withChain (h : m.decided truth = true) (k : Chain) :
    (m.withChain k).decided truth = true ∧ (m.withChain k).select truth = m.select truth := by
  induction k generalizing m with
  | last a => exact kept_withArm h a
  | otherwise a before after b =>
    obtain ⟨hd, hs⟩ := kept_withArm h a
    rw [withChain]
    cases b.value? with
    | none => exact ⟨hd, hs⟩
    | some v =>
      obtain ⟨hd', hs'⟩ := kept_addElse hd a.name v
      exact ⟨hd', hs'.trans hs⟩
  | elseIf a before after apart rest ih =>
    obtain ⟨hd, hs⟩ := kept_withArm h a
    obtain ⟨hd', hs'⟩ := ih hd
    exact ⟨hd', hs'.trans hs⟩

/-! While nothing is decided, a chain selects what it assigns. -/

theorem withArm_of_none {a : Arm} (h : a.value? = none) : m.withArm a = m := by
  rw [withArm, h]
  rfl

theorem withArm_of_some {a : Arm} {v : Value} (h : a.value? = some v) :
    m.withArm a = m.addArm a.name v := by
  rw [withArm, h]
  rfl

/-- An arm whose condition fails changes nothing yet. -/
theorem undecided_withArm (h : m.decided truth = false) {a : Arm} (ha : truth a.name = false) :
    (m.withArm a).decided truth = false ∧ (m.withArm a).fallback = m.fallback := by
  cases hv : a.value? with
  | none =>
    rw [withArm_of_none hv]
    exact ⟨h, rfl⟩
  | some v =>
    rw [withArm_of_some hv]
    rw [decided] at h
    exact ⟨by simp [decided, addArm, h, ha], rfl⟩

/-- An arm whose condition holds is selected, if it assigns. -/
theorem decided_withArm (h : m.decided truth = false) {a : Arm} {v : Value}
    (ha : truth a.name = true) (hv : a.value? = some v) :
    (m.withArm a).decided truth = true ∧ (m.withArm a).select truth = some v := by
  rw [withArm_of_some hv]
  refine ⟨by simp [decided, addArm, ha], ?_⟩
  simp [select, addArm, List.find?_append, find?_of_undecided h, ha]

theorem withChain_of_idle {k : Chain} (h : k.assigns = false) : m.withChain k = m := by
  induction k with
  | last a =>
    simp only [Chain.assigns, Option.isSome_eq_false_iff, Option.isNone_iff_eq_none] at h
    exact withArm_of_none h
  | otherwise a before after b =>
    simp only [Chain.assigns, Bool.or_eq_false_iff, Option.isSome_eq_false_iff,
      Option.isNone_iff_eq_none] at h
    rw [withChain, withArm_of_none h.1, h.2]
    rfl
  | elseIf a before after apart rest ih =>
    simp only [Chain.assigns, Bool.or_eq_false_iff, Option.isSome_eq_false_iff,
      Option.isNone_iff_eq_none] at h
    rw [withChain, withArm_of_none h.1]
    exact ih h.2

/-- Where nothing is decided before, a chain without gaps decides as running it does. -/
theorem withChain_of_gapless (h : m.decided truth = false) {k : Chain}
    (hk : k.gapless truth = true) :
    (m.withChain k).decided truth = k.decides truth ∧
      (m.withChain k).select truth = k.run truth m.fallback := by
  induction k generalizing m with
  | last a =>
    by_cases ha : truth a.name = true
    · cases hv : a.value? with
      | none => simp [withChain, withArm_of_none hv, Chain.decides, Chain.run, ha, hv, h,
          select_of_undecided h]
      | some v =>
        obtain ⟨hd, hs⟩ := decided_withArm h ha hv
        simp [withChain, hd, hs, Chain.decides, Chain.run, ha, hv]
    · obtain ⟨hd, hf⟩ := undecided_withArm h (a := a) (by simpa using ha)
      simp [withChain, hd, select_of_undecided hd, hf, Chain.decides, Chain.run, ha]
  | otherwise a before after b =>
    by_cases ha : truth a.name = true
    · cases hv : a.value? with
      | none =>
        have hb : b.value? = none := by simpa [Chain.gapless, ha, hv] using hk
        simp [withChain, withArm_of_none hv, Chain.decides, Chain.run, ha, hv, hb, h,
          select_of_undecided h]
      | some v =>
        obtain ⟨hd, hs⟩ := decided_withArm h ha hv
        cases hb : b.value? with
        | none => simp [withChain, hd, hs, Chain.decides, Chain.run, ha, hv, hb]
        | some w =>
          obtain ⟨hd', hs'⟩ := kept_addElse hd a.name w
          simp [withChain, hd', hs', hs, Chain.decides, Chain.run, ha, hv, hb]
    · obtain ⟨hd, hf⟩ := undecided_withArm h (a := a) (by simpa using ha)
      cases hb : b.value? with
      | none => simp [withChain, hd, select_of_undecided hd, hf, Chain.decides, Chain.run, ha, hb]
      | some w =>
        obtain ⟨hd', hs'⟩ := undecided_addElse hd (by simpa using ha) w
        simp [withChain, hd', hs', Chain.decides, Chain.run, ha, hb]
  | elseIf a before after apart rest ih =>
    by_cases ha : truth a.name = true
    · cases hv : a.value? with
      | none =>
        have hidle : rest.assigns = false := by simpa [Chain.gapless, ha, hv] using hk
        simp [withChain, withArm_of_none hv, withChain_of_idle hidle, Chain.decides, Chain.run, ha, hv,
          h, select_of_undecided h]
      | some v =>
        obtain ⟨hd, hs⟩ := decided_withArm h ha hv
        obtain ⟨hd', hs'⟩ := kept_withChain hd rest
        simp [withChain, hd', hs', hs, Chain.decides, Chain.run, ha, hv]
    · obtain ⟨hd, hf⟩ := undecided_withArm h (a := a) (by simpa using ha)
      have hrest : rest.gapless truth = true := by simpa [Chain.gapless, ha] using hk
      obtain ⟨hd', hs'⟩ := ih hd hrest
      simp [withChain, hd', hs', hf, Chain.decides, Chain.run, ha]

/-- The one gap that an `else` fills: its condition keeps what there was. -/
theorem withChain_of_pair (h : m.arms.isEmpty = true) {k : Chain} (hp : k.isPair = true)
    (hk : k.gapless truth = false) :
    (m.withChain k).decided truth = true ∧
      (m.withChain k).select truth = k.run truth m.fallback := by
  cases k with
  | last a => cases hp
  | elseIf a before after apart rest => cases hp
  | otherwise a before after b =>
    simp only [Chain.gapless, Bool.or_eq_false_iff, Bool.not_eq_false', Option.isSome_eq_false_iff,
      Option.isNone_iff_eq_none, Option.isNone_eq_false_iff, Option.isSome_iff_exists] at hk
    obtain ⟨⟨ha, hv⟩, w, hb⟩ := hk
    simp [withChain, withArm_of_none hv, hb, addElse, h, decided, select, Chain.run, ha, hv]

theorem isEmpty_withArm (a : Arm) :
    (m.withArm a).arms.isEmpty = (m.arms.isEmpty && a.value?.isNone) := by
  cases hv : a.value? with
  | none => simp [withArm_of_none hv]
  | some v => simp [withArm_of_some hv, addArm]

theorem isEmpty_withChain (k : Chain) :
    (m.withChain k).arms.isEmpty = (m.arms.isEmpty && !k.assigns) := by
  induction k generalizing m with
  | last a => cases hv : a.value? <;> simp [withChain, isEmpty_withArm, Chain.assigns, hv]
  | otherwise a before after b =>
    cases hb : b.value? with
    | none => cases hv : a.value? <;> simp [withChain, isEmpty_withArm, Chain.assigns, hv, hb]
    | some w =>
      have helse : ((m.withArm a).addElse a.name w).arms.isEmpty = false := by
        rw [addElse]
        split
        · rfl
        · rename_i hne
          simpa using hne
      simp [withChain, helse, Chain.assigns, hb]
  | elseIf a before after apart rest ih =>
    cases hv : a.value? <;> simp [withChain, ih, isEmpty_withArm, Chain.assigns, hv]

/-- Step by step, selection follows execution. -/
theorem select_foldl {ks : List (Gap × Chain)} {armed : Bool} (ha : m.arms.isEmpty = !armed)
    (h : settles truth armed (m.decided truth) (ks.map Prod.snd) = true) :
    (ks.foldl (fun m k => m.withChain k.2) m).select truth =
      ks.foldl (fun held k => k.2.run truth held) (m.select truth) := by
  induction ks generalizing m armed with
  | nil => rfl
  | cons k ks ih =>
    have hempty := isEmpty_withChain (m := m) k.2
    rw [List.map_cons] at h
    rw [List.foldl_cons, List.foldl_cons]
    cases hd : m.decided truth with
    | true =>
      obtain ⟨hd', hs'⟩ := kept_withChain hd k.2
      rw [hd, settles, Bool.and_eq_true, Option.isNone_iff_eq_none] at h
      have harmed : armed = true := by simpa [arms_ne_nil hd] using ha
      have hrun : k.2.run truth (m.select truth) = m.select truth := by
        rw [Chain.run_eq, h.1, Option.none_or]
      have hnext : (m.withChain k.2).arms.isEmpty = !armed := by rw [arms_ne_nil hd', harmed]; rfl
      rw [hrun, ← hs']
      exact ih hnext (by rw [hd']; exact h.2)
    | false =>
      rw [hd, settles] at h
      rw [select_of_undecided hd]
      split at h
      · rename_i hk
        obtain ⟨hd', hs'⟩ := withChain_of_gapless hd hk
        have hnext : (m.withChain k.2).arms.isEmpty = !(armed || k.2.assigns) := by
          rw [hempty, ha, Bool.not_or]
        rw [← hs']
        exact ih hnext (by rw [hd']; exact h)
      · rename_i hk
        simp only [Bool.and_eq_true, Bool.not_eq_true'] at h
        obtain ⟨⟨hnone, hp⟩, hrest⟩ := h
        have hm : m.arms.isEmpty = true := by simp [ha, hnone]
        obtain ⟨hd', hs'⟩ := withChain_of_pair hm hp (by simpa using hk)
        have hnext : (m.withChain k.2).arms.isEmpty = !true := arms_ne_nil hd'
        rw [← hs']
        exact ih hnext (by rw [hd']; exact hrest)

end Merge

/-- A binding selects what the variable holds. -/
theorem Script.select_merge {truth : String → Bool} {s : Script} (h : s.Settles truth) :
    s.merge.select truth = s.run truth :=
  Merge.select_foldl (m := ⟨[], s.initial.map Initial.value⟩) rfl h

def Chain.full : Chain → Bool
  | last a => a.value?.isSome
  | otherwise a _ _ b => a.value?.isSome && b.value?.isSome
  | elseIf a _ _ _ rest => a.value?.isSome && rest.full

theorem Chain.gapless_of_full {truth : String → Bool} {k : Chain} (h : k.full = true) :
    k.gapless truth = true := by
  induction k with
  | last a => rfl
  | otherwise a before after b =>
    rw [full, Bool.and_eq_true] at h
    simp [gapless, h.1]
  | elseIf a before after apart rest ih =>
    rw [full, Bool.and_eq_true] at h
    rw [gapless]
    split
    · simp [h.1]
    · exact ih h.2

/-- A single chain whose blocks all assign the variable settles whatever its conditions say. -/
theorem Script.settles_of_full {truth : String → Bool} {s : Script} {k : Chain}
    (hs : s.chains.map Prod.snd = [k]) (hk : k.full = true) : s.Settles truth := by
  rw [Settles, hs, settles, if_pos (Chain.gapless_of_full hk)]
  rfl

/-! ### Bindings -/

namespace Markup.Value

variable (v : Value)

theorem trimmed_text : Trimmed v.text := by
  obtain ⟨t, ht⟩ := v.cons
  refine ⟨fun c hc => ?_, fun c hc => ?_⟩
  · rw [ht, List.head?_cons, Option.mem_some_iff] at hc
    exact hc ▸ by decide
  · rw [v.closes, Option.mem_some_iff] at hc
    exact hc ▸ by decide

theorem stripOuterParens_text : stripOuterParens v.text = v.text := by
  obtain ⟨t, ht⟩ := v.cons
  exact stripOuterParens_of_not_group v.trimmed_text (isGroup_of_head (by simp [ht]))

theorem not_nothing : Content.isNothing v.text = false := by
  obtain ⟨t, ht⟩ := v.cons
  simp [Content.isNothing, ht]

theorem wholeElement?_text : ∃ e, Content.wholeElement? v.text = some e ∧ e.name ≠ "" := by
  obtain ⟨e, he, hstop, hname⟩ := v.reads (v.text.length + 2) 0 [] (by simp)
  rw [List.append_nil] at he
  exact ⟨e, by simp [Content.wholeElement?, parseElement?, he, hstop], hname⟩

end Markup.Value

/-- An element gives a single content, which is no branching. -/
theorem Markup.Value.contents_eq (v : Value) :
    ∃ c, v.contents = [c] ∧ ((∃ u cs, c = .element u cs) ∨ ∃ u cs, c = .component u cs) := by
  obtain ⟨e, hwhole, hname⟩ := v.wholeElement?_text
  have hcontents : v.contents = (Content.ofElement Content.ofExpression e).value := by
    simp only [Value.contents, Content.ofOperand, v.stripOuterParens_text, v.not_nothing, hwhole]
    rfl
  obtain ⟨name, props, spreads, children, closed, start, stop⟩ := e
  have hne : name.isEmpty = false := by simpa using hname
  rw [hcontents, Content.ofElement]
  simp only [hne, Reviewed.value_bind]
  generalize (Content.ofNodes Content.ofExpression children).value = cs
  by_cases hc : isComponentName name = true
  · exact ⟨.component ⟨name, props, spreads⟩ cs, by simp [hc], .inr ⟨_, _, rfl⟩⟩
  · exact ⟨.element ⟨name, props, spreads⟩ cs, by simp [hc], .inl ⟨_, _, rfl⟩⟩

namespace Merge

theorem condition_of_mem {arms : List (String × Option Value)} {b : Branch}
    (h : b ∈ branchesOf arms) : b.condition.isSome = true := by
  obtain ⟨a, -, rfl⟩ := List.mem_map.1 h
  rfl

theorem insertBeforeElse_branchesOf (arms : List (String × Option Value)) (arm : Branch)
    (rest : List Branch) (hr : ∀ b ∈ rest.head?, b.condition.isNone = true) :
    Bindings.insertBeforeElse arm (branchesOf arms ++ rest) = branchesOf arms ++ arm :: rest := by
  induction arms with
  | nil =>
    cases rest with
    | nil => rfl
    | cons b rest => simp [branchesOf, Bindings.insertBeforeElse, hr b rfl]
  | cons a arms ih =>
    have hstep : branchesOf (a :: arms) = .mk (some a.1) (shownOf a.2) :: branchesOf arms := rfl
    rw [hstep, List.cons_append, Bindings.insertBeforeElse, if_neg (by simp [Branch.condition]), ih]
    rfl

theorem filter_branchesOf (arms : List (String × Option Value)) (rest : List Branch)
    (hr : ∀ b ∈ rest, b.condition.isSome = false) :
    (branchesOf arms ++ rest).filter (·.condition.isSome) = branchesOf arms := by
  rw [List.filter_append, List.filter_eq_self.2 fun b hb => condition_of_mem hb,
    List.filter_eq_nil_iff.2 fun b hb => by simp [hr b hb], List.append_nil]

variable {v : Value} {x : Content}

theorem shownOf_some (hv : v.contents = [x]) : shownOf (some v) = [x] := by
  simp [shownOf, hv]

theorem branchesOf_concat (arms : List (String × Option Value)) (c : String)
    (hv : v.contents = [x]) :
    branchesOf (arms ++ [(c, some v)]) = branchesOf arms ++ [.mk (some c) [x]] := by
  rw [branchesOf, List.map_append, List.map_singleton, shownOf_some hv]
  rfl

theorem content_some {arms : List (String × Option Value)} (h : arms ≠ []) (f : Value) :
    content ⟨arms, some f⟩ = some (.branches (branchesOf arms ++ [.mk none f.contents])) := by
  match arms with
  | [] => exact absurd rfl h
  | [a] => rfl
  | a :: b :: arms => rfl

/-- An assignment under a condition is entered as an arm. -/
theorem underCondition_content (m : Merge) (c : String) (hv : v.contents = [x]) :
    some (Bindings.underCondition m.content c x) = (m.addArm c v).content := by
  obtain ⟨arms, fallback⟩ := m
  match arms, fallback with
  | [], none => simp [content, addArm, Bindings.underCondition, shownOf_some hv]
  | [], some f =>
    obtain ⟨y, hy, ⟨u, cs, rfl⟩ | ⟨u, cs, rfl⟩⟩ := f.contents_eq
    · simp [content, addArm, Bindings.underCondition, branchesOf, shownOf_some hv, hy]
    · simp [content, addArm, Bindings.underCondition, branchesOf, shownOf_some hv, hy]
  | [a], none => simp [content, addArm, Bindings.underCondition, branchesOf, shownOf_some hv]
  | a :: b :: arms, none =>
    have h := insertBeforeElse_branchesOf (a :: b :: arms) (.mk (some c) [x]) [] (by simp)
    rw [List.append_nil, ← branchesOf_concat _ c hv] at h
    exact congrArg (some ∘ Content.branches) h
  | a :: arms, some f =>
    have h := insertBeforeElse_branchesOf (a :: arms) (.mk (some c) [x]) [.mk none f.contents]
      (by simp [Branch.condition])
    rw [addArm, content_some (by simp), content_some (by simp), branchesOf_concat _ c hv,
      List.append_assoc, List.singleton_append, ← h]
    rfl

/-- An assignment in an `else` is entered as the last resort of its condition. -/
theorem underElse_content (m : Merge) (c : String) (hv : v.contents = [x]) :
    some (Bindings.underElse m.content c x) = (m.addElse c v).content := by
  obtain ⟨arms, fallback⟩ := m
  match arms, fallback with
  | [], none => simp [content, addElse, Bindings.underElse, branchesOf, shownOf, hv]
  | [], some f =>
    obtain ⟨y, hy, ⟨u, cs, rfl⟩ | ⟨u, cs, rfl⟩⟩ := f.contents_eq
    · simp [content, addElse, Bindings.underElse, branchesOf, shownOf, hv, hy]
    · simp [content, addElse, Bindings.underElse, branchesOf, shownOf, hv, hy]
  | [a], none => simp [content, addElse, Bindings.underElse, branchesOf, hv]
  | a :: b :: arms, none =>
    have h := filter_branchesOf (a :: b :: arms) [] (by simp)
    rw [List.append_nil] at h
    have hcontent : (addElse ⟨a :: b :: arms, none⟩ c v).content =
        some (.branches (branchesOf (a :: b :: arms) ++ [.mk none v.contents])) := rfl
    rw [hcontent, hv, ← h]
    rfl
  | a :: arms, some f =>
    have h := filter_branchesOf (a :: arms) [.mk none f.contents] (by simp [Branch.condition])
    have helse : addElse ⟨a :: arms, some f⟩ c v = ⟨a :: arms, some v⟩ := rfl
    have hunder (bs : List Branch) : Bindings.underElse (some (.branches bs)) c x =
        .branches (bs.filter (·.condition.isSome) ++ [.mk none [x]]) := rfl
    rw [helse, content_some (by simp), content_some (by simp), hv, hunder, h]

/-- A branch is selected by its condition. -/
theorem find?_branchesOf (truth : String → Bool) (arms : List (String × Option Value))
    {rest : List Branch} (hr : ∀ b ∈ rest, b.condition.isSome = false) :
    (branchesOf arms ++ rest).find? (fun b => b.condition.any truth) =
      (arms.find? fun a => truth a.1).map fun a => .mk (some a.1) (shownOf a.2) := by
  have hrest : rest.find? (fun b => b.condition.any truth) = none := by
    rw [List.find?_eq_none]
    intro b hb
    have := hr b hb
    simp only [Option.isSome_eq_false_iff, Option.isNone_iff_eq_none] at this
    simp [this]
  rw [List.find?_append, hrest, Option.or_none, branchesOf, List.find?_map]
  rfl

theorem find?_unconditional (arms : List (String × Option Value)) (rest : List Branch) :
    (branchesOf arms ++ rest).find? (·.condition.isNone) = rest.find? (·.condition.isNone) := by
  have hnone : (branchesOf arms).find? (·.condition.isNone) = none := by
    rw [List.find?_eq_none]
    intro b hb
    have := condition_of_mem hb
    simpa [← Option.isSome_iff_ne_none] using this
  rw [List.find?_append, hnone, Option.none_or]

/-- What a name shows is what the selection among its arms yields. -/
theorem selected_content (truth : String → Bool) (m : Merge) :
    selected truth m.content = shownOf (m.select truth) := by
  obtain ⟨arms, fallback⟩ := m
  match arms, fallback with
  | [], none => rfl
  | [], some f =>
    obtain ⟨y, hy, ⟨u, cs, rfl⟩ | ⟨u, cs, rfl⟩⟩ := f.contents_eq
    · simp [content, select, selected, shownOf, hy]
    · simp [content, select, selected, shownOf, hy]
  | [a], none =>
    by_cases ha : truth a.1 = true
    · simp [content, select, selected, ha]
    · simp [content, select, selected, ha, shownOf]
  | a :: b :: arms, none =>
    have hfind := find?_branchesOf truth (a :: b :: arms) (List.forall_mem_nil _)
    have hrest := find?_unconditional (a :: b :: arms) []
    rw [List.append_nil] at hfind hrest
    simp only [content, selected, select, hfind, hrest]
    cases (a :: b :: arms).find? fun a => truth a.1 with
    | none => rfl
    | some d => rfl
  | a :: arms, some f =>
    have hnone : ∀ b ∈ [Branch.mk none f.contents], b.condition.isSome = false := by
      simp [Branch.condition]
    have hfind := find?_branchesOf truth (a :: arms) hnone
    have hrest := find?_unconditional (a :: arms) [.mk none f.contents]
    simp only [content_some (List.cons_ne_nil a arms), selected, select, hfind, hrest]
    cases (a :: arms).find? fun a => truth a.1 with
    | none => simp [Branch.condition, shownOf, Branch.body]
    | some d => rfl

end Merge

end JsxToJinja
