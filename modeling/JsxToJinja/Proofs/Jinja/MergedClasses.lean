import JsxToJinja.Proofs.Jinja.Chains

/-! Rules merged into a class list: entries of equal conditions and chains of equal names are found
again, so nothing is lost or invented, and the list keeps its shape along any run of additions. -/
namespace JsxToJinja
open JsxToJinja.Jinja

namespace Jinja

def ClassEntry.guard? : ClassEntry → Option String
  | .guarded condition _ => some condition
  | _ => none

def ClassEntry.chainName? : ClassEntry → Option String
  | .chain name _ => some name
  | _ => none

namespace ClassList

/-! ### Entries after one addition -/

def armsOf (name : String) : List ClassEntry → List ClassArm
  | [] => []
  | .chain n arms :: rest => if n == name then arms else armsOf name rest
  | _ :: rest => armsOf name rest

private theorem armsOf_cons_of_ne {name : String} {e : ClassEntry} (h : e.chainName? ≠ some name)
    (rest : List ClassEntry) : armsOf name (e :: rest) = armsOf name rest := by
  cases e with
  | chain n arms => exact if_neg (by simpa [ClassEntry.chainName?] using h)
  | _ => rfl

private theorem armsOf_eq_nil_or (name : String) (entries : List ClassEntry) :
    armsOf name entries = [] ∨ .chain name (armsOf name entries) ∈ entries := by
  induction entries with
  | nil => exact .inl rfl
  | cons e rest ih =>
    by_cases he : e.chainName? = some name
    · cases e with
      | chain n arms =>
        obtain rfl : n = name := by simpa [ClassEntry.chainName?] using he
        simp [armsOf]
      | _ => simp [ClassEntry.chainName?] at he
    · rw [armsOf_cons_of_ne he]
      exact ih.imp_right (List.mem_cons_of_mem _)

private theorem armsOf_of_mem {name : String} {arms : List ClassArm} {entries : List ClassEntry}
    (hnames : (entries.filterMap (·.chainName?)).Nodup) (h : .chain name arms ∈ entries) :
    armsOf name entries = arms := by
  induction entries with
  | nil => simp at h
  | cons e rest ih =>
    rcases List.mem_cons.1 h with rfl | h
    · simp [armsOf]
    · have hname : name ∈ rest.filterMap (·.chainName?) := List.mem_filterMap.2 ⟨_, h, rfl⟩
      cases he : e.chainName? with
      | none =>
        rw [List.filterMap_cons_none he] at hnames
        rw [armsOf_cons_of_ne (by simp [he]), ih hnames h]
      | some n =>
        rw [List.filterMap_cons_some he, List.nodup_cons] at hnames
        rw [armsOf_cons_of_ne (by rw [he]; rintro ⟨⟩; exact hnames.1 hname), ih hnames.2 h]

private theorem guards_guardInto (cssClass condition : String) (entries : List ClassEntry) :
    (guardInto cssClass condition entries).filterMap (·.guard?) =
      if condition ∈ entries.filterMap (·.guard?) then entries.filterMap (·.guard?)
      else entries.filterMap (·.guard?) ++ [condition] := by
  induction entries with
  | nil => rfl
  | cons e rest ih =>
    cases e with
    | guarded c classes =>
      rw [guardInto]
      by_cases hc : c = condition
      · simp [ClassEntry.guard?, hc]
      · have hne : ¬condition = c := fun h => hc h.symm
        have hcons (es : List ClassEntry) : (ClassEntry.guarded c classes :: es).filterMap
            (·.guard?) = c :: es.filterMap (·.guard?) := rfl
        rw [if_neg (by simpa using hc), hcons, hcons, ih]
        by_cases hmem : condition ∈ rest.filterMap (·.guard?) <;> simp [hmem, hne]
    | _ => simpa [guardInto, ClassEntry.guard?] using ih

private theorem chains_guardInto (cssClass condition : String) (entries : List ClassEntry) :
    (guardInto cssClass condition entries).filterMap (·.chainName?) =
      entries.filterMap (·.chainName?) := by
  induction entries with
  | nil => rfl
  | cons e rest ih =>
    cases e with
    | guarded c classes =>
      rw [guardInto]
      split
      · simp [ClassEntry.chainName?]
      · simpa [ClassEntry.chainName?] using ih
    | _ => simpa [guardInto, ClassEntry.chainName?] using ih

private theorem armsOf_guardInto (name cssClass condition : String) (entries : List ClassEntry) :
    armsOf name (guardInto cssClass condition entries) = armsOf name entries := by
  induction entries with
  | nil => rfl
  | cons e rest ih =>
    cases e with
    | guarded c classes =>
      rw [guardInto]
      split <;> simp [armsOf, ih]
    | _ => simp [guardInto, armsOf, ih]

def UnderGuard (entries : List ClassEntry) (condition cssClass : String) : Prop :=
  ∃ classes, .guarded condition classes ∈ entries ∧ cssClass ∈ classes

private theorem underGuard_cons {e : ClassEntry} {rest : List ClassEntry} {condition d : String} :
    UnderGuard (e :: rest) condition d ↔
      (∃ classes, e = .guarded condition classes ∧ d ∈ classes) ∨ UnderGuard rest condition d := by
  simp only [UnderGuard, List.mem_cons, or_and_right, exists_or, eq_comm]

private theorem underGuard_guardInto (cssClass condition : String) (entries : List ClassEntry)
    (c d : String) :
    UnderGuard (guardInto cssClass condition entries) c d ↔
      UnderGuard entries c d ∨ condition = c ∧ cssClass = d := by
  induction entries with
  | nil => simp [guardInto, UnderGuard, eq_comm]
  | cons e rest ih =>
    cases e with
    | guarded k classes =>
      rw [guardInto]
      by_cases hk : k = condition
      · rw [if_pos (by simpa using hk), underGuard_cons, underGuard_cons]
        simp only [ClassEntry.guarded.injEq, existsAndEq, mem_appendNew,
          List.mem_singleton, hk]
        tauto
      · rw [if_neg (by simpa using hk), underGuard_cons, underGuard_cons, ih, or_assoc]
    | _ => rw [guardInto, underGuard_cons, underGuard_cons, ih, or_assoc]; simp

private theorem underGuard_chainInto (name : String) (k : Option String) (cssClass : String)
    (entries : List ClassEntry) (c d : String) :
    UnderGuard (chainInto name k cssClass entries) c d ↔ UnderGuard entries c d := by
  induction entries with
  | nil => simp [chainInto, UnderGuard]
  | cons e rest ih =>
    cases e with
    | chain n arms =>
      rw [chainInto]
      split
      · simp [underGuard_cons]
      · rw [underGuard_cons, underGuard_cons, ih]
    | _ => rw [chainInto, underGuard_cons, underGuard_cons, ih]; simp

private theorem guards_chainInto (name : String) (k : Option String) (cssClass : String)
    (entries : List ClassEntry) :
    (chainInto name k cssClass entries).filterMap (·.guard?) = entries.filterMap (·.guard?) := by
  induction entries with
  | nil => rfl
  | cons e rest ih =>
    cases e with
    | chain n arms =>
      rw [chainInto]
      split
      · simp [ClassEntry.guard?]
      · simpa [ClassEntry.guard?] using ih
    | _ => simpa [chainInto, ClassEntry.guard?] using ih

private theorem chains_chainInto (name : String) (k : Option String) (cssClass : String)
    (entries : List ClassEntry) :
    (chainInto name k cssClass entries).filterMap (·.chainName?) =
      if name ∈ entries.filterMap (·.chainName?) then entries.filterMap (·.chainName?)
      else entries.filterMap (·.chainName?) ++ [name] := by
  induction entries with
  | nil => rfl
  | cons e rest ih =>
    cases e with
    | chain n arms =>
      rw [chainInto]
      by_cases hn : n = name
      · simp [ClassEntry.chainName?, hn]
      · have hne : ¬name = n := fun h => hn h.symm
        have hcons (es : List ClassEntry) : (ClassEntry.chain n arms :: es).filterMap
            (·.chainName?) = n :: es.filterMap (·.chainName?) := rfl
        rw [if_neg (by simpa using hn), hcons, hcons, ih]
        by_cases hmem : name ∈ rest.filterMap (·.chainName?) <;> simp [hmem, hne]
    | _ => simpa [chainInto, ClassEntry.chainName?] using ih

private theorem armsOf_chainInto (name : String) (k : Option String) (cssClass : String)
    (entries : List ClassEntry) (name' : String) :
    armsOf name' (chainInto name k cssClass entries) =
      if name = name' then addTo (armsOf name entries) (k, cssClass) else armsOf name' entries := by
  induction entries with
  | nil =>
    by_cases hn : name = name'
    · cases k <;> simp [chainInto, armsOf, hn, addTo, armInto, fallbackLast]
    · simp [chainInto, armsOf, hn]
  | cons e rest ih =>
    cases e with
    | chain n arms =>
      rw [chainInto]
      by_cases hn : n = name
      · rw [if_pos (by simpa using hn)]
        by_cases hn' : name = name' <;> simp [armsOf, hn, hn', addTo]
      · rw [if_neg (by simpa using hn)]
        by_cases hn' : n = name'
        · have hne : ¬name = name' := fun h => hn (hn'.trans h.symm)
          simp [armsOf, hn', hne]
        · simp [armsOf, hn, hn', ih]
    | _ => simpa [chainInto, armsOf] using ih

private theorem armsOf_snoc (name : String) (entries : List ClassEntry) {e : ClassEntry}
    (h : e.chainName? = none) : armsOf name (entries ++ [e]) = armsOf name entries := by
  induction entries with
  | nil => exact armsOf_cons_of_ne (by simp [h]) []
  | cons e' rest ih =>
    cases e' with
    | chain n arms => simp [armsOf, ih]
    | _ => simpa [armsOf] using ih

/-! ### The shape of a class list -/

/-- Nothing in the base twice, one entry for each guard and each chain, and chains whose arms exclude
each other, the arm without a condition last. -/
structure WellFormed (cl : ClassList) : Prop where
  base : cl.base.Nodup
  guards : (cl.entries.filterMap (·.guard?)).Nodup
  chains : (cl.entries.filterMap (·.chainName?)).Nodup
  arms : ∀ name arms, .chain name arms ∈ cl.entries → Exclusive arms

theorem wellFormed_empty : WellFormed {} := ⟨.nil, .nil, .nil, by simp⟩

namespace WellFormed
variable {cl : ClassList}

private theorem exclusive_armsOf (h : cl.WellFormed) (name : String) :
    Exclusive (armsOf name cl.entries) := by
  rcases armsOf_eq_nil_or name cl.entries with hnil | hmem
  · exact hnil ▸ exclusive_nil
  · exact h.arms name _ hmem

theorem addBase (h : cl.WellFormed) (classes : List String) : (cl.addBase classes).WellFormed :=
  ⟨nodup_appendNew classes h.base, h.guards, h.chains, h.arms⟩

/-- Classes under one condition stay in one entry. -/
theorem addConditional (h : cl.WellFormed) (cssClass condition : String) :
    (cl.addConditional cssClass condition).WellFormed := by
  have hchains : ((guardInto cssClass condition cl.entries).filterMap (·.chainName?)).Nodup := by
    rw [chains_guardInto]
    exact h.chains
  refine ⟨h.base, ?_, hchains, fun name arms hmem => ?_⟩
  · rw [ClassList.addConditional, guards_guardInto]
    exact nodup_enter h.guards condition
  · rw [← armsOf_of_mem hchains hmem, armsOf_guardInto]
    exact h.exclusive_armsOf name

/-- A chain stays one entry, with one arm for each condition. -/
theorem addArm (h : cl.WellFormed) (name : String) (k : Option String) (cssClass : String) :
    (cl.addArm name k cssClass).WellFormed := by
  have hchains : ((chainInto name k cssClass cl.entries).filterMap (·.chainName?)).Nodup := by
    rw [chains_chainInto]
    exact nodup_enter h.chains name
  refine ⟨h.base, ?_, hchains, fun name' arms hmem => ?_⟩
  · rw [ClassList.addArm, guards_chainInto]
    exact h.guards
  · rw [← armsOf_of_mem hchains hmem, armsOf_chainInto]
    split
    · exact (h.exclusive_armsOf name).addTo (k, cssClass)
    · exact h.exclusive_armsOf name'

private theorem snoc (h : cl.WellFormed) {e : ClassEntry} (hguard : e.guard? = none)
    (hchain : e.chainName? = none) : WellFormed { cl with entries := cl.entries ++ [e] } := by
  refine ⟨h.base, ?_, ?_, fun name arms hmem => ?_⟩
  · simpa [hguard] using h.guards
  · simpa [hchain] using h.chains
  · rcases List.mem_append.1 hmem with hmem | hmem
    · exact h.arms name arms hmem
    · obtain rfl := List.mem_singleton.1 hmem
      simp [ClassEntry.chainName?] at hchain

theorem addComputed (h : cl.WellFormed) (expression : String) :
    (cl.addComputed expression).WellFormed := by
  rw [ClassList.addComputed, appendNew_cons, appendNew, List.foldl_nil]
  split
  · exact h
  · exact h.snoc rfl rfl

theorem addTemplate (h : cl.WellFormed) (names : NameMap) (literal : String)
    (guard : Option String) : (cl.addTemplate names literal guard).WellFormed :=
  h.snoc rfl rfl

end WellFormed

/-! ### Rules one after another -/

/-- What a rule adds: an arm of its chain, a template literal, a class under its condition, or
nothing. -/
theorem addRule_cases (names : NameMap) (r : ClassRule) :
    (∃ name, InChain name r ∧
      ∀ cl, addRule names cl r = cl.addArm name (armCondition names r) r.cssClass) ∨
    (∀ name, ¬InChain name r) ∧
      ((∃ condition, conditionFor? names (names.resolve r.prop) r.trigger = some condition ∧
          ∀ cl, addRule names cl r = cl.addConditional r.cssClass condition) ∨
        conditionFor? names (names.resolve r.prop) r.trigger = none ∧
          ((∃ literal guard, ∀ cl, addRule names cl r = cl.addTemplate names literal guard) ∨
            ∀ cl, addRule names cl r = cl)) := by
  by_cases hin : ∃ name, InChain name r
  · obtain ⟨name, hin⟩ := hin
    exact .inl ⟨name, hin, addRule_of_inChain hin names⟩
  · have hout (name : String) : ¬InChain name r := fun h => hin ⟨name, h⟩
    refine .inr ⟨hout, ?_⟩
    obtain ⟨prop, trigger, cssClass, condition, chain⟩ := r
    cases trigger with
    | template pattern excluded guard =>
      exact .inr ⟨rfl, .inl ⟨_, _, fun cl => by cases chain <;> rfl⟩⟩
    | equals v =>
      cases chain with
      | none => exact .inl ⟨_, rfl, fun cl => rfl⟩
      | some name => exact absurd ⟨rfl, .inl ⟨v, rfl⟩⟩ (hout name)
    | otherwise =>
      cases chain with
      | none => exact .inr ⟨rfl, .inr fun cl => rfl⟩
      | some name => exact absurd ⟨rfl, .inr rfl⟩ (hout name)
    | _ => exact .inl ⟨_, rfl, fun cl => by cases chain <;> rfl⟩

theorem WellFormed.addRule {cl : ClassList} (h : cl.WellFormed) (names : NameMap) (r : ClassRule) :
    (ClassList.addRule names cl r).WellFormed := by
  rcases addRule_cases names r with ⟨name, -, heq⟩ | ⟨-, ⟨c, -, heq⟩ | ⟨-, ⟨l, g, heq⟩ | heq⟩⟩
  · exact heq cl ▸ h.addArm name _ _
  · exact heq cl ▸ h.addConditional _ c
  · exact heq cl ▸ h.addTemplate names l g
  · exact (heq cl).symm ▸ h

theorem WellFormed.addRules {cl : ClassList} (h : cl.WellFormed) (names : NameMap)
    (rules : List ClassRule) : (cl.addRules names rules).WellFormed := by
  induction rules generalizing cl with
  | nil => exact h
  | cons r rest ih => exact ih (h.addRule names r)

private theorem underGuard_addRules (names : NameMap) (rules : List ClassRule) (cl : ClassList)
    (c d : String) :
    UnderGuard (cl.addRules names rules).entries c d ↔
      UnderGuard cl.entries c d ∨ ∃ r ∈ rules, (∀ name, ¬InChain name r) ∧
        conditionFor? names (names.resolve r.prop) r.trigger = some c ∧ r.cssClass = d := by
  induction rules generalizing cl with
  | nil => simp [addRules]
  | cons r rest ih =>
    have hstep : UnderGuard (addRule names cl r).entries c d ↔ UnderGuard cl.entries c d ∨
        (∀ name, ¬InChain name r) ∧
          conditionFor? names (names.resolve r.prop) r.trigger = some c ∧ r.cssClass = d := by
      rcases addRule_cases names r with ⟨name, hin, heq⟩ | ⟨hout, ⟨k, hk, heq⟩ | ⟨hk, ⟨l, g, heq⟩ | heq⟩⟩
      · rw [heq, addArm, underGuard_chainInto, or_iff_left fun h => h.1 name hin]
      · rw [heq, addConditional, underGuard_guardInto, hk, and_iff_right hout, Option.some.injEq]
      · simp [heq, addTemplate, UnderGuard, hk]
      · simp [heq, hk]
    rw [addRules, List.foldl_cons, ← addRules, ih, hstep, or_assoc, List.exists_mem_cons_iff]

private theorem armsOf_addRules (names : NameMap) (rules : List ClassRule) (cl : ClassList)
    (name : String) :
    armsOf name (cl.addRules names rules).entries =
      ((rules.filter fun r => InChain name r).map fun r => (armCondition names r, r.cssClass)).foldl
        addTo (armsOf name cl.entries) := by
  induction rules generalizing cl with
  | nil => rfl
  | cons r rest ih =>
    rw [addRules, List.foldl_cons, ← addRules, ih]
    rcases addRule_cases names r with ⟨n, hin, heq⟩ | ⟨hout, hcases⟩
    · rw [heq, addArm, armsOf_chainInto]
      by_cases hn : n = name
      · subst hn
        rw [List.filter_cons_of_pos (by simpa using hin), if_pos rfl, List.map_cons, List.foldl_cons]
      · have hother : ¬InChain name r := fun h => hn (Option.some_inj.1 (hin.chain.symm.trans h.chain))
        rw [List.filter_cons_of_neg (by simpa using hother), if_neg hn]
    · rw [List.filter_cons_of_neg (by simpa using hout name)]
      congr 1
      rcases hcases with ⟨k, -, heq⟩ | ⟨-, ⟨l, g, heq⟩ | heq⟩
      · rw [heq, addConditional, armsOf_guardInto]
      · rw [heq, addTemplate, armsOf_snoc name _ rfl]
      · rw [heq]

private theorem mem_appended {cl : ClassList} (h : cl.WellFormed) (holds : String → Bool)
    (d : String) :
    d ∈ cl.appended holds ↔
      (∃ c, holds c = true ∧ UnderGuard cl.entries c d) ∨
        ∃ name, d ∈ chosen holds (armsOf name cl.entries) := by
  rw [appended, List.mem_flatMap]
  constructor
  · rintro ⟨e, he, hd⟩
    cases e with
    | guarded c classes =>
      by_cases hc : holds c = true
      · exact .inl ⟨c, hc, classes, he, by simpa [ClassEntry.appended, hc] using hd⟩
      · simp [ClassEntry.appended, hc] at hd
    | chain name arms => exact .inr ⟨name, (armsOf_of_mem h.chains he).symm ▸ hd⟩
    | _ => simp [ClassEntry.appended] at hd
  · rintro (⟨c, hc, classes, he, hd⟩ | ⟨name, hd⟩)
    · exact ⟨_, he, by simpa [ClassEntry.appended, hc] using hd⟩
    · rcases armsOf_eq_nil_or name cl.entries with hnil | hmem
      · simp [hnil, chosen] at hd
      · exact ⟨_, hmem, hd⟩

/-! ### What the rules denote -/

/-- Conditions of the arms of a chain, in the order of the rules. -/
def chainConditions (names : NameMap) (rules : List ClassRule) (name : String) : List String :=
  (rules.filter fun r => InChain name r).filterMap (armCondition names)

/-- A class that rules give when the truth of the conditions is known: that of a rule on its own
whose condition holds, and in a chain those of the rules for the first condition that holds, or of the
rules without a condition when none does. -/
inductive Denotes (names : NameMap) (rules : List ClassRule) (holds : String → Bool) : String → Prop
  | alone {r : ClassRule} {condition : String} (hr : r ∈ rules) (hchain : ∀ name, ¬InChain name r)
      (hcondition : conditionFor? names (names.resolve r.prop) r.trigger = some condition)
      (hholds : holds condition = true) : Denotes names rules holds r.cssClass
  | arm {name : String} {r : ClassRule} (hr : r ∈ rules) (hchain : InChain name r)
      (hfirst : armCondition names r = (chainConditions names rules name).find? holds)
      (hclass : r.cssClass ≠ "") : Denotes names rules holds r.cssClass

/-- Rules merged into a list without entries append what they denote. -/
theorem mem_appended_addRules (names : NameMap) (rules : List ClassRule) {cl : ClassList}
    (h : cl.WellFormed) (hcl : cl.entries = []) (holds : String → Bool) (d : String) :
    d ∈ (cl.addRules names rules).appended holds ↔ Denotes names rules holds d := by
  have hchain (name : String) : d ∈ chosen holds (armsOf name (cl.addRules names rules).entries) ↔
      d ≠ "" ∧ ∃ r ∈ rules, InChain name r ∧
        armCondition names r = (chainConditions names rules name).find? holds ∧ r.cssClass = d := by
    rw [armsOf_addRules, hcl, armsOf, mem_chosen_foldl, List.filterMap_map]
    simp only [List.mem_map, List.mem_filter, decide_eq_true_eq, Prod.mk.injEq, and_assoc]
    rfl
  rw [mem_appended (h.addRules names rules)]
  simp only [underGuard_addRules, hchain, hcl]
  constructor
  · rintro (⟨c, hc, hnil | ⟨r, hr, hout, hcond, rfl⟩⟩ | ⟨name, hd, r, hr, hin, hfirst, rfl⟩)
    · simp [UnderGuard] at hnil
    · exact .alone hr hout hcond hc
    · exact .arm hr hin hfirst hd
  · rintro (⟨hr, hout, hcond, hc⟩ | ⟨hr, hin, hfirst, hclass⟩)
    · exact .inl ⟨_, hc, .inr ⟨_, hr, hout, hcond, rfl⟩⟩
    · exact .inr ⟨_, hclass, _, hr, hin, hfirst, rfl⟩

/-- Rules of one chain, when a single condition holds: the classes of its rules, or those of the
fallback if no rule has the condition. -/
theorem mem_appended_chain {name : String} {rules : List ClassRule}
    (h : ∀ r ∈ rules, InChain name r) (names : NameMap) (text c : String) :
    c ∈ (addRules {} names rules).appended (· == text) ↔
      c ≠ "" ∧ ((∃ r ∈ rules, armCondition names r = some text ∧ r.cssClass = c) ∨
        (∀ r ∈ rules, armCondition names r ≠ some text) ∧
          ∃ r ∈ rules, armCondition names r = none ∧ r.cssClass = c) := by
  have hall : chainConditions names rules name = rules.filterMap (armCondition names) := by
    rw [chainConditions, List.filter_eq_self.2 fun r hr => by simpa using h r hr]
  have hdenotes : Denotes names rules (· == text) c ↔
      c ≠ "" ∧ ∃ r ∈ rules, armCondition names r = (rules.filterMap (armCondition names)).find? (· == text) ∧
        r.cssClass = c := by
    constructor
    · rintro (⟨hr, hout, -, -⟩ | ⟨hr, hin, hfirst, hclass⟩)
      · exact absurd (h _ hr) (hout name)
      · obtain rfl : _ = name := Option.some_inj.1 (hin.chain.symm.trans (h _ hr).chain)
        exact ⟨hclass, _, hr, hall ▸ hfirst, rfl⟩
    · rintro ⟨hclass, r, hr, hfirst, rfl⟩
      exact .arm hr (h r hr) (hall ▸ hfirst) hclass
  rw [mem_appended_addRules names rules wellFormed_empty rfl, hdenotes]
  refine and_congr_right fun _ => ?_
  by_cases hex : ∃ r ∈ rules, armCondition names r = some text
  · have hfind : (rules.filterMap (armCondition names)).find? (· == text) = some text := by
      cases hfound : (rules.filterMap (armCondition names)).find? (· == text) with
      | none =>
        obtain ⟨r, hr, he⟩ := hex
        simpa using List.find?_eq_none.1 hfound text (List.mem_filterMap.2 ⟨r, hr, he⟩)
      | some k =>
        have hk : (k == text) = true := List.find?_some (p := (· == text)) hfound
        rw [beq_iff_eq.1 hk]
    have hno : ¬∀ r ∈ rules, armCondition names r ≠ some text := by simpa using hex
    rw [hfind, or_iff_left fun he => hno he.1]
  · have hfind : (rules.filterMap (armCondition names)).find? (· == text) = none := by
      rw [List.find?_eq_none]
      intro k hk hbeq
      obtain ⟨r, hr, he⟩ := List.mem_filterMap.1 hk
      exact hex ⟨r, hr, beq_iff_eq.1 hbeq ▸ he⟩
    have hno : ∀ r ∈ rules, armCondition names r ≠ some text := fun r hr he => hex ⟨r, hr, he⟩
    rw [hfind, or_iff_right fun ⟨r, hr, he, _⟩ => hex ⟨r, hr, he⟩, and_iff_right hno]

/-! ### Sequences of operations -/

/-- One operation on a class list. -/
inductive Operation where
  | base (classes : List String)
  | conditional (cssClass condition : String)
  | boolean (variableName cssClass : String) (negate : Bool)
  | rules (names : NameMap) (rules : List ClassRule)
  | computed (expression : String)
  | template (names : NameMap) (literal : String) (guard : Option String)

def perform (cl : ClassList) : Operation → ClassList
  | .base classes => cl.addBase classes
  | .conditional cssClass condition => cl.addConditional cssClass condition
  | .boolean variableName cssClass negate => cl.addBoolean variableName cssClass negate
  | .rules names rules => cl.addRules names rules
  | .computed expression => cl.addComputed expression
  | .template names literal guard => cl.addTemplate names literal guard

theorem WellFormed.perform {cl : ClassList} (h : cl.WellFormed) (op : Operation) :
    (cl.perform op).WellFormed := by
  cases op with
  | base classes => exact h.addBase classes
  | conditional cssClass condition => exact h.addConditional cssClass condition
  | boolean variableName cssClass negate => exact h.addConditional cssClass _
  | rules names rules => exact h.addRules names rules
  | computed expression => exact h.addComputed expression
  | template names literal guard => exact h.addTemplate names literal guard

theorem WellFormed.run {cl : ClassList} (h : cl.WellFormed) (ops : List Operation) :
    (ops.foldl ClassList.perform cl).WellFormed := by
  induction ops generalizing cl with
  | nil => exact h
  | cons op rest ih => exact ih (h.perform op)

def textOperations (names : NameMap) (e : Extraction) : List Operation :=
  e.computed.map (fun c => .computed (translate names c)) ++
    e.templates.map fun t => .template names t.1 (t.2.map (translate names))

/-- An extraction is merged by operations. -/
theorem ofExtraction_eq_foldl (names : NameMap) (e : Extraction) :
    ofExtraction names e =
      (textOperations names e).foldl perform ((addBase {} e.base).addRules names e.rules) := by
  rw [textOperations, List.foldl_append, List.foldl_map, List.foldl_map]
  rfl

theorem wellFormed_ofExtraction (names : NameMap) (e : Extraction) :
    (ofExtraction names e).WellFormed := by
  rw [ofExtraction_eq_foldl]
  exact ((wellFormed_empty.addBase e.base).addRules names e.rules).run _

def literals (cl : ClassList) (holds : String → Bool) : List String := cl.base ++ cl.appended holds

private theorem literals_addComputed (cl : ClassList) (expression : String)
    (holds : String → Bool) : (cl.addComputed expression).literals holds = cl.literals holds := by
  rw [addComputed, appendNew_cons, appendNew, List.foldl_nil]
  split <;> simp [literals, appended, ClassEntry.appended]

private theorem literals_addTemplate (cl : ClassList) (names : NameMap) (literal : String)
    (guard : Option String) (holds : String → Bool) :
    (cl.addTemplate names literal guard).literals holds = cl.literals holds := by
  simp [addTemplate, literals, appended, ClassEntry.appended]

private theorem base_addRules (names : NameMap) (rules : List ClassRule) (cl : ClassList) :
    (cl.addRules names rules).base = cl.base := by
  induction rules generalizing cl with
  | nil => rfl
  | cons r rest ih =>
    rw [addRules, List.foldl_cons, ← addRules, ih]
    rcases addRule_cases names r with ⟨n, -, heq⟩ | ⟨-, ⟨k, -, heq⟩ | ⟨-, ⟨l, g, heq⟩ | heq⟩⟩ <;>
      rw [heq] <;> rfl

private theorem literals_textOperations (names : NameMap) (e : Extraction) (cl : ClassList)
    (holds : String → Bool) :
    ((textOperations names e).foldl perform cl).literals holds = cl.literals holds := by
  have hkeep (op : Operation) (hop : op ∈ textOperations names e) (cl : ClassList) :
      (cl.perform op).literals holds = cl.literals holds := by
    rcases List.mem_append.1 hop with hop | hop
    · obtain ⟨c, -, rfl⟩ := List.mem_map.1 hop
      exact literals_addComputed cl _ holds
    · obtain ⟨t, -, rfl⟩ := List.mem_map.1 hop
      exact literals_addTemplate cl names t.1 _ holds
  generalize textOperations names e = ops at hkeep
  induction ops generalizing cl with
  | nil => rfl
  | cons op rest ih =>
    rw [List.foldl_cons, ih _ fun op' h => hkeep op' (List.mem_cons_of_mem _ h),
      hkeep op List.mem_cons_self]

/-- A class list made of an extraction gives exactly the literal classes that the extraction denotes.
After any sequence of operations, on it or on the empty list, there is one entry for each guard and
each chain, and the arms of a chain exclude each other. -/
theorem merging_keeps_classes :
    (∀ (names : NameMap) (e : Extraction) (holds : String → Bool) (d : String),
      d ∈ (ofExtraction names e).literals holds ↔ d ∈ e.base ∨ Denotes names e.rules holds d) ∧
    ∀ ops : List Operation, (ops.foldl perform {}).WellFormed ∧
      ∀ (names : NameMap) (e : Extraction), (ops.foldl perform (ofExtraction names e)).WellFormed := by
  refine ⟨fun names e holds d => ?_, fun ops => ⟨wellFormed_empty.run ops, fun names e => ?_⟩⟩
  · rw [ofExtraction_eq_foldl, literals_textOperations, literals, List.mem_append, base_addRules,
      mem_appended_addRules names e.rules (wellFormed_empty.addBase e.base) rfl, addBase,
      mem_appendNew]
    simp
  · exact (wellFormed_ofExtraction names e).run ops

end ClassList
end Jinja
end JsxToJinja
