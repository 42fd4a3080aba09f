import Mathlib.Data.List.ReduceOption
import JsxToJinja.Jinja.ClassList

/-! Which classes a class list appends when the truth of its conditions is known, and what the arms of
a chain hold after any sequence of additions. -/
namespace JsxToJinja.Jinja

/-- Classes of the first arm that holds. The arm without a condition always does. -/
def chosen (holds : String → Bool) (arms : List ClassArm) : List String :=
  ((arms.find? fun a => a.condition.all holds).map (·.classes)).getD []

def conditions (arms : List ClassArm) : List (Option String) := arms.map (·.condition)

def ClassEntry.appended (holds : String → Bool) : ClassEntry → List String
  | .guarded condition classes => if holds condition then classes else []
  | .chain _ arms => chosen holds arms
  | .computed _ => []
  | .template _ _ => []

namespace ClassList

def appended (cl : ClassList) (holds : String → Bool) : List String :=
  cl.entries.flatMap (·.appended holds)

def classesAt (arms : List ClassArm) (condition : Option String) : Option (List String) :=
  (arms.find? (·.condition == condition)).map (·.classes)

@[simp] theorem classesAt_nil (k : Option String) : classesAt [] k = none := rfl

private theorem classesAt_cons (a : ClassArm) (arms : List ClassArm) (k : Option String) :
    classesAt (a :: arms) k = if a.condition = k then some a.classes else classesAt arms k := by
  by_cases h : a.condition = k <;> simp [classesAt, h]

private theorem classesAt_append (xs ys : List ClassArm) (k : Option String) :
    classesAt (xs ++ ys) k = (classesAt xs k).or (classesAt ys k) := by
  simp [classesAt, List.find?_append, Option.map_or]

def withClass (classes : List String) (cssClass : String) : List String :=
  if cssClass.isEmpty then classes else appendNew classes [cssClass]

private theorem mem_withClass {classes : List String} {cssClass c : String} :
    c ∈ withClass classes cssClass ↔ c ∈ classes ∨ c ≠ "" ∧ c = cssClass := by
  by_cases h : cssClass = ""
  · simp +contextual [withClass, h]
  · have hne : cssClass.isEmpty = false := by simpa using h
    rw [withClass, if_neg (by simp [hne]), mem_appendNew, List.mem_singleton]
    refine or_congr_right ⟨fun he => ⟨he ▸ h, he⟩, fun he => he.2⟩

/-- An addition opens or extends its own arm and leaves the others alone. -/
theorem classesAt_armInto (arms : List ClassArm) (k k' : Option String) (cssClass : String) :
    classesAt (armInto k cssClass arms) k' =
      if k = k' then some (withClass ((classesAt arms k).getD []) cssClass)
      else classesAt arms k' := by
  induction arms with
  | nil =>
    by_cases hk : k = k'
    · by_cases hc : cssClass.isEmpty = true <;>
        simp [armInto, classesAt, hk, withClass, hc, appendNew]
    · simp [armInto, classesAt, hk]
  | cons a arms ih =>
    rw [armInto]
    by_cases ha : a.condition = k
    · rw [if_pos (by simp [ha]), classesAt_cons, classesAt_cons, classesAt_cons]
      by_cases hk : k = k' <;> simp [ha, hk, withClass]
    · rw [if_neg (by simp [ha]), classesAt_cons, ih, classesAt_cons, classesAt_cons, if_neg ha]
      by_cases hk : k = k'
      · subst hk
        simp [ha]
      · simp [hk]

private theorem classesAt_filter (arms : List ClassArm) (p : ClassArm → Bool) {k : Option String}
    (hp : ∀ a : ClassArm, a.condition = k → p a = true) :
    classesAt (arms.filter p) k = classesAt arms k := by
  induction arms with
  | nil => rfl
  | cons a arms ih =>
    by_cases ha : a.condition = k
    · rw [List.filter_cons_of_pos (hp a ha), classesAt_cons, classesAt_cons, if_pos ha, if_pos ha]
    · rw [classesAt_cons, if_neg ha, ← ih]
      by_cases hf : p a = true
      · rw [List.filter_cons_of_pos hf, classesAt_cons, if_neg ha]
      · rw [List.filter_cons_of_neg hf]

private theorem classesAt_filter_none (arms : List ClassArm) (p : ClassArm → Bool)
    {k : Option String} (hp : ∀ a : ClassArm, a.condition = k → p a = false) :
    classesAt (arms.filter p) k = none := by
  rw [classesAt, Option.map_eq_none_iff, List.find?_eq_none]
  intro a ha hk
  have hfalse := hp a (by simpa using hk)
  simp [(List.mem_filter.1 ha).2] at hfalse

/-- Moving the fallback to the end keeps every arm. -/
theorem classesAt_fallbackLast (arms : List ClassArm) (k : Option String) :
    classesAt (fallbackLast arms) k = classesAt arms k := by
  rw [fallbackLast, classesAt_append]
  cases k with
  | none =>
    rw [classesAt_filter_none _ _ (by simp +contextual), Option.none_or,
      classesAt_filter _ _ (by simp +contextual)]
  | some c =>
    rw [classesAt_filter _ _ (by simp +contextual), classesAt_filter_none _ _ (by simp +contextual),
      Option.or_none]

/-! ### Conditions of the arms -/

/-- An arm is found by its condition, or stands at the end. -/
theorem conditions_armInto (arms : List ClassArm) (k : Option String) (cssClass : String) :
    conditions (armInto k cssClass arms) =
      if k ∈ conditions arms then conditions arms else conditions arms ++ [k] := by
  induction arms with
  | nil => simp [armInto, conditions]
  | cons a rest ih =>
    rw [armInto]
    by_cases ha : a.condition = k
    · simp [ha, conditions]
    · have hne : ¬k = a.condition := fun h => ha h.symm
      rw [if_neg (by simpa using ha)]
      simp only [conditions, List.map_cons, List.mem_cons, hne, false_or] at ih ⊢
      by_cases hk : k ∈ rest.map (·.condition) <;> simp [ih, hk]

theorem fallbackLast_perm (arms : List ClassArm) : (fallbackLast arms).Perm arms := by
  have hnone : arms.filter (·.condition.isNone) = arms.filter fun a => !a.condition.isSome := by
    simp
  rw [fallbackLast, hnone]
  exact List.filter_append_perm _ arms

/-- With each condition once, one arm at most goes last. -/
theorem ordered_fallbackLast {arms : List ClassArm} (h : (conditions arms).Nodup) :
    (fallbackLast arms).Pairwise fun a _ => a.condition.isSome = true := by
  have hnone : (arms.filter (·.condition.isNone)).Pairwise fun a _ => a.condition.isSome = true := by
    have hne : (arms.filter (·.condition.isNone)).Pairwise fun a b => a.condition ≠ b.condition :=
      (List.pairwise_map.1 h).filter _
    refine hne.imp_of_mem fun ha hb hab => absurd ?_ hab
    simp only [List.mem_filter, Option.isNone_iff_eq_none] at ha hb
    rw [ha.2, hb.2]
  rw [fallbackLast, List.pairwise_append]
  refine ⟨List.pairwise_of_forall_mem_list fun a ha _ _ => ?_, hnone, fun a ha _ _ => ?_⟩ <;>
    exact (List.mem_filter.1 ha).2

/-! ### Runs of additions -/

def addTo (arms : List ClassArm) (entry : Option String × String) : List ClassArm :=
  fallbackLast (armInto entry.1 entry.2 arms)

theorem classesAt_addTo (arms : List ClassArm) (entry : Option String × String)
    (k : Option String) :
    classesAt (addTo arms entry) k =
      if entry.1 = k then some (withClass ((classesAt arms entry.1).getD []) entry.2)
      else classesAt arms k := by
  rw [addTo, classesAt_fallbackLast, classesAt_armInto]

/-- After a run of additions an arm holds what it held and all classes added to it that are not
empty. -/
theorem mem_classesAt_foldl (arms : List ClassArm) (entries : List (Option String × String))
    (k : Option String) (c : String) :
    c ∈ (classesAt (entries.foldl addTo arms) k).getD [] ↔
      c ∈ (classesAt arms k).getD [] ∨ c ≠ "" ∧ (k, c) ∈ entries := by
  induction entries generalizing arms with
  | nil => simp
  | cons e rest ih =>
    rw [List.foldl_cons, ih, classesAt_addTo, List.mem_cons]
    by_cases he : e.1 = k
    · rw [if_pos he, Option.getD_some, mem_withClass, he]
      have hpair : (k, c) = e ↔ c = e.2 := by simp [Prod.ext_iff, he]
      rw [hpair, and_or_left, or_assoc]
    · have hpair : ¬ (k, c) = e := by
        rintro rfl
        exact he rfl
      rw [if_neg he]
      simp [hpair]

theorem nodup_enter {α : Type} [BEq α] [LawfulBEq α] {items : List α} (h : items.Nodup) (x : α) :
    (if x ∈ items then items else items ++ [x]).Nodup := by
  simpa [appendNew] using nodup_appendNew [x] h

/-- Each condition once, and the arm without one last. -/
structure Exclusive (arms : List ClassArm) : Prop where
  distinct : (conditions arms).Nodup
  ordered : arms.Pairwise fun a _ => a.condition.isSome = true

theorem exclusive_nil : Exclusive [] := ⟨List.nodup_nil, .nil⟩

theorem Exclusive.addTo {arms : List ClassArm} (h : Exclusive arms)
    (entry : Option String × String) : Exclusive (addTo arms entry) := by
  have hdistinct : (conditions (armInto entry.1 entry.2 arms)).Nodup := by
    rw [conditions_armInto]
    exact nodup_enter h.distinct entry.1
  exact ⟨(((fallbackLast_perm _).map _).nodup_iff).2 hdistinct, ordered_fallbackLast hdistinct⟩

theorem exclusive_foldl {arms : List ClassArm} (h : Exclusive arms)
    (entries : List (Option String × String)) : Exclusive (entries.foldl ClassList.addTo arms) := by
  induction entries generalizing arms with
  | nil => exact h
  | cons e rest ih => exact ih (h.addTo e)

/-! ### The arm that is chosen -/

/-- The chosen arm is that of the first condition that holds, or else the fallback. -/
theorem chosen_eq {arms : List ClassArm} (h : Exclusive arms) (holds : String → Bool) :
    chosen holds arms =
      (classesAt arms ((conditions arms).reduceOption.find? holds)).getD [] := by
  have hfind : arms.find? (fun a => a.condition.all holds) =
      arms.find? (·.condition == (conditions arms).reduceOption.find? holds) := by
    have hordered := h.ordered
    clear h
    induction arms with
    | nil => rfl
    | cons a rest ih =>
      obtain ⟨hfirst, hrest⟩ := List.pairwise_cons.1 hordered
      cases ha : a.condition with
      | none =>
        obtain rfl : rest = [] :=
          List.eq_nil_iff_forall_not_mem.2 fun b hb => by simpa [ha] using hfirst b hb
        simp [conditions, ha]
      | some c =>
        have hcons : (conditions (a :: rest)).reduceOption = c :: (conditions rest).reduceOption := by
          simp [conditions, ha]
        by_cases hc : holds c = true
        · rw [hcons, List.find?_cons_of_pos hc]
          simp [ha, hc]
        · have hne : (conditions rest).reduceOption.find? holds ≠ some c :=
            fun he => hc (List.find?_some he)
          rw [hcons, List.find?_cons_of_neg hc, List.find?_cons_of_neg (by simpa [ha] using hc),
            ih hrest, List.find?_cons_of_neg (by simpa [ha] using hne.symm)]
  rw [chosen, hfind, classesAt]

private theorem reduceOption_fallbackLast (arms : List ClassArm) :
    (conditions (fallbackLast arms)).reduceOption = (conditions arms).reduceOption := by
  have hsome (xs : List ClassArm) : (conditions (xs.filter (·.condition.isSome))).reduceOption =
      (conditions xs).reduceOption := by
    induction xs with
    | nil => rfl
    | cons a rest ih => cases ha : a.condition <;> simpa [conditions, ha] using ih
  have hnone (xs : List ClassArm) :
      (conditions (xs.filter (·.condition.isNone))).reduceOption = [] := by
    induction xs with
    | nil => rfl
    | cons a rest ih => cases ha : a.condition <;> simpa [conditions, ha] using ih
  rw [fallbackLast, conditions, List.map_append, ← conditions, ← conditions,
    List.reduceOption_append, hsome, hnone, List.append_nil]

private theorem find?_addTo (arms : List ClassArm) (entry : Option String × String)
    (holds : String → Bool) :
    (conditions (addTo arms entry)).reduceOption.find? holds =
      ((conditions arms).reduceOption.find? holds).or (entry.1.toList.find? holds) := by
  rw [addTo, reduceOption_fallbackLast, conditions_armInto]
  split
  · rename_i hmem
    cases hfound : (conditions arms).reduceOption.find? holds with
    | some c => rfl
    | none =>
      rw [Option.none_or, eq_comm, List.find?_eq_none]
      intro c hc
      obtain hk : entry.1 = some c := by simpa using hc
      exact List.find?_eq_none.1 hfound c (List.reduceOption_mem_iff.2 (hk ▸ hmem))
  · rw [List.reduceOption_append, List.find?_append]
    cases entry.1 <;> rfl

private theorem find?_foldl_addTo (arms : List ClassArm) (entries : List (Option String × String))
    (holds : String → Bool) :
    (conditions (entries.foldl addTo arms)).reduceOption.find? holds =
      ((conditions arms).reduceOption.find? holds).or
        ((entries.filterMap (·.1)).find? holds) := by
  induction entries generalizing arms with
  | nil => simp
  | cons e rest ih =>
    rw [List.foldl_cons, ih, find?_addTo, Option.or_assoc]
    cases he : e.1 with
    | none => simp [he]
    | some c => cases hc : holds c <;> simp [he, hc]

/-- A chain built by additions gives the classes added under its first condition that holds, or
those of the fallback when no condition does. -/
theorem mem_chosen_foldl (entries : List (Option String × String)) (holds : String → Bool)
    (c : String) :
    c ∈ chosen holds (entries.foldl addTo []) ↔
      c ≠ "" ∧ ((entries.filterMap (·.1)).find? holds, c) ∈ entries := by
  rw [chosen_eq (exclusive_foldl exclusive_nil entries), mem_classesAt_foldl, find?_foldl_addTo]
  simp [conditions]

/-! ### Rules of one chain -/

def isArm : Trigger → Bool
  | .equals _ => true
  | .otherwise => true
  | _ => false

/-- A rule for one arm of the chain of a name. -/
structure InChain (name : String) (r : ClassRule) : Prop where
  chain : r.chain = some name
  trigger : (∃ v, r.trigger = .equals v) ∨ r.trigger = .otherwise

theorem inChain_iff {name : String} {r : ClassRule} :
    InChain name r ↔ r.chain = some name ∧ isArm r.trigger = true := by
  constructor
  · rintro ⟨hchain, ⟨v, ht⟩ | ht⟩ <;> simp [hchain, ht, isArm]
  · rintro ⟨hchain, ht⟩
    cases htrigger : r.trigger <;> simp [htrigger, isArm] at ht
    · exact ⟨hchain, .inl ⟨_, htrigger⟩⟩
    · exact ⟨hchain, .inr htrigger⟩

instance (name : String) (r : ClassRule) : Decidable (InChain name r) :=
  decidable_of_iff _ inChain_iff.symm

def armCondition (names : NameMap) (r : ClassRule) : Option String :=
  match r.trigger with
  | .equals v => some (names.resolve r.prop ++ " == " ++ operand v)
  | _ => none

theorem addRule_of_inChain {name : String} {r : ClassRule} (h : InChain name r) (names : NameMap)
    (cl : ClassList) : addRule names cl r = cl.addArm name (armCondition names r) r.cssClass := by
  rcases h.trigger with ⟨v, hv⟩ | hv
  · simp [addRule, armCondition, h.chain, hv]
  · simp [addRule, armCondition, h.chain, hv]

end ClassList

end JsxToJinja.Jinja
