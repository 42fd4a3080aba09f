import JsxToJinja.Classes.Switch
import Mathlib.Data.List.TakeWhile

/-! Clauses of switch statements. The clauses are told apart by their assignments only: labels wait
for the next one, whatever `break` stands in between. So the values are recovered where no assignment
stands behind a clause without one. -/
namespace JsxToJinja.Switch

inductive Label where
  | value (v : Json)
  | default

/-- A group of labels and the value that is assigned behind it, up to `break`. -/
structure Clause where
  labels : List Label
  assigned : Option String

namespace Label

def key? : Label → Option String
  | value v => some (literalKey v)
  | default => none

def isFor (key : String) (l : Label) : Bool := l.key? == some key

def isDefault : Label → Bool
  | value _ => false
  | default => true

def step (arms : Arms) : Label → Arms
  | value v => { arms with pending := arms.pending ++ [v] }
  | default => { arms with inDefault := true }

end Label

def assign (arms : Arms) (result : String) : Arms :=
  { cases := if arms.pending.isEmpty then arms.cases else arms.cases ++ [⟨arms.pending, result⟩]
    pending := []
    inDefault := false
    default := if arms.inDefault then arms.default.or (some result) else arms.default }

namespace Clause

def lists (key : String) (c : Clause) : Bool := c.labels.any (·.isFor key)

def isDefault (c : Clause) : Bool := c.labels.any (·.isDefault)

def step (arms : Arms) (c : Clause) : Arms :=
  match c.assigned with
  | some result => assign (c.labels.foldl Label.step arms) result
  | none => c.labels.foldl Label.step arms

end Clause

/-- What the statement assigns for a value: the first clause that lists it decides, else the default
clause. -/
def assigned (clauses : List Clause) (key : String) : Option String :=
  ((clauses.find? (·.lists key)).or (clauses.find? (·.isDefault))).bind (·.assigned)

/-- The first assignment from the first clause of a kind on. -/
def following (kind : Clause → Bool) (clauses : List Clause) : Option String :=
  (clauses.dropWhile (!kind ·)).findSome? (·.assigned)

/-! ### The first clause of a kind -/

variable {kind : Clause → Bool} {clauses : List Clause}

theorem following_of_split {u v : List Clause} {c : Clause} (hu : ∀ b ∈ u, kind b = false)
    (hc : kind c = true) : following kind (u ++ c :: v) = (c :: v).findSome? (·.assigned) := by
  rw [following, List.dropWhile_append_of_pos fun b hb => by simp [hu b hb], List.dropWhile_cons_of_neg]
  simp [hc]

theorem following_of_none (h : ∀ b ∈ clauses, kind b = false) : following kind clauses = none := by
  have hempty : clauses.dropWhile (!kind ·) = [] :=
    List.dropWhile_eq_nil_iff.2 fun b hb => by simp [h b hb]
  rw [following, hempty]
  rfl

/-- The first clause of a kind, with what stands around it. -/
theorem exists_split_of_find? {c : Clause} (h : clauses.find? kind = some c) :
    ∃ u v, clauses = u ++ c :: v ∧ (∀ b ∈ u, kind b = false) ∧ kind c = true := by
  obtain ⟨hc, u, v, rfl, hu⟩ := List.find?_eq_some_iff_append.1 h
  exact ⟨u, v, rfl, fun b hb => by simpa using hu b hb, hc⟩

theorem find?_of_split {u v : List Clause} {c : Clause} (hu : ∀ b ∈ u, kind b = false)
    (hc : kind c = true) : (u ++ c :: v).find? kind = some c := by
  rw [List.find?_append, List.find?_eq_none.2 fun b hb => by simp [hu b hb], Option.none_or,
    List.find?_cons_of_pos hc]

/-! ### A run over the clauses -/

def Arms.select? (arms : Arms) (key : String) : Option String :=
  (arms.cases.find? fun c => c.values.any (literalKey · == key)).map (·.result)

/-- The first assignment that counts, when a label of the kind waits already or not. -/
def next (kind : Clause → Bool) (waiting : Bool) (clauses : List Clause) : Option String :=
  if waiting then clauses.findSome? (·.assigned) else following kind clauses

theorem next_cons (waiting : Bool) (c : Clause) (rest : List Clause) :
    next kind waiting (c :: rest) =
      if waiting || kind c then c.assigned.or (next kind true rest) else next kind false rest := by
  cases waiting with
  | true =>
    simp only [next, Bool.true_or, if_true, List.findSome?_cons]
    cases c.assigned <;> rfl
  | false =>
    cases hc : kind c with
    | true =>
      simp only [next, following, Bool.false_eq_true, if_false, Bool.or_true, if_true,
        List.dropWhile_cons, hc, Bool.not_true, List.findSome?_cons]
      cases c.assigned <;> rfl
    | false => simp [next, following, hc]

/-- A row of labels leaves the results alone and adds itself to what waits for the next one. -/
theorem foldl_labels (labels : List Label) (arms : Arms) :
    (labels.foldl Label.step arms).cases = arms.cases ∧
    (labels.foldl Label.step arms).default = arms.default ∧
    (labels.foldl Label.step arms).inDefault = (arms.inDefault || labels.any (·.isDefault)) ∧
    ∀ key, (labels.foldl Label.step arms).pending.any (literalKey · == key) =
      (arms.pending.any (literalKey · == key) || labels.any (·.isFor key)) := by
  induction labels generalizing arms with
  | nil => simp
  | cons l rest ih =>
    obtain ⟨hcases, hdefault, hin, hpending⟩ := ih (l.step arms)
    rw [List.foldl_cons]
    cases l with
    | value v =>
      refine ⟨hcases, hdefault, by rw [hin]; rfl, fun key => ?_⟩
      rw [hpending, List.any_cons, ← Bool.or_assoc]
      simp only [Label.step, List.any_append, List.any_cons, List.any_nil, Bool.or_false]
      rfl
    | default =>
      refine ⟨hcases, hdefault, ?_, fun key => ?_⟩
      · rw [hin]
        simp [Label.step, Label.isDefault]
      · rw [hpending]
        rfl

theorem select?_assign (arms : Arms) (result key : String) :
    (assign arms result).select? key = (arms.select? key).or
      (if arms.pending.any (literalKey · == key) then some result else none) := by
  simp only [Arms.select?, assign]
  cases hpending : arms.pending with
  | nil => simp
  | cons v rest =>
    rw [if_neg (by simp), List.find?_append, Option.map_or]
    congr 1
    rw [List.find?_singleton]
    split <;> rfl

/-- A run over clauses: each value waits for the next assignment from its first clause on, and so does
the default. -/
theorem foldl_clauses (clauses : List Clause) (arms : Arms) :
    (clauses.foldl Clause.step arms).default =
      arms.default.or (next (·.isDefault) arms.inDefault clauses) ∧
    ∀ key, (clauses.foldl Clause.step arms).select? key = (arms.select? key).or
      (next (·.lists key) (arms.pending.any (literalKey · == key)) clauses) := by
  induction clauses generalizing arms with
  | nil =>
    have hnil (kind : Clause → Bool) (waiting : Bool) : next kind waiting [] = none := by
      cases waiting <;> rfl
    simp [hnil]
  | cons c rest ih =>
    obtain ⟨hcases, hdefault, hin, hpending⟩ := foldl_labels c.labels arms
    obtain ⟨ihdefault, ihselect⟩ := ih (Clause.step arms c)
    rw [List.foldl_cons]
    cases hassigned : c.assigned with
    | none =>
      have hstep : Clause.step arms c = c.labels.foldl Label.step arms := by
        rw [Clause.step, hassigned]
      have hnext (kind : Clause → Bool) (waiting : Bool) :
          next kind (waiting || kind c) rest = next kind waiting (c :: rest) := by
        rw [next_cons, hassigned, Option.none_or]
        cases waiting || kind c <;> rfl
      have hselect (key : String) : (Clause.step arms c).select? key = arms.select? key := by
        rw [hstep, Arms.select?, hcases]
        rfl
      rw [ihdefault]
      refine ⟨?_, fun key => ?_⟩
      · rw [← hnext, hstep, hdefault, hin]
        rfl
      · rw [ihselect, hselect, ← hnext, hstep, hpending]
        rfl
    | some result =>
      have hstep : Clause.step arms c = assign (c.labels.foldl Label.step arms) result := by
        rw [Clause.step, hassigned]
      have hnext (kind : Clause → Bool) (waiting : Bool) : next kind waiting (c :: rest) =
          (if waiting || kind c then some result else none).or (next kind false rest) := by
        rw [next_cons, hassigned]
        cases waiting || kind c <;> simp
      refine ⟨?_, fun key => ?_⟩
      · have hset : (Clause.step arms c).default =
            arms.default.or (if arms.inDefault || c.isDefault then some result else none) := by
          rw [hstep, assign, hdefault, hin]
          show (if (arms.inDefault || c.isDefault) = true then _ else _) = _
          cases arms.inDefault || c.isDefault <;> simp
        have hfalse : (Clause.step arms c).inDefault = false := by rw [hstep]; rfl
        rw [ihdefault, hset, hfalse, Option.or_assoc, ← hnext]
      · have hset : (Clause.step arms c).select? key = (arms.select? key).or
            (if arms.pending.any (literalKey · == key) || c.lists key then some result else none) := by
          rw [hstep, select?_assign, hpending, Arms.select?, hcases]
          rfl
        have hnone : (Clause.step arms c).pending = [] := by rw [hstep]; rfl
        rw [ihselect, hset, hnone, Option.or_assoc, List.any_nil, ← hnext]

/-! ### When the values are recovered -/

/-- Nothing is assigned behind a clause without an assignment that decides for a value or by default.
If it decides for a value, nothing is assigned by default either. -/
structure Recovered (clauses : List Clause) : Prop where
  default : ∀ u c v, clauses = u ++ c :: v → (∀ b ∈ u, b.isDefault = false) → c.isDefault = true →
    c.assigned = none → ∀ b ∈ v, b.assigned = none
  values : ∀ key u c v, clauses = u ++ c :: v → (∀ b ∈ u, b.lists key = false) → c.lists key = true →
    c.assigned = none → (∀ b ∈ v, b.assigned = none) ∧
      ∀ d ∈ clauses.find? (·.isDefault), d.assigned = none

theorem findSome?_cons_eq_none {c : Clause} {v : List Clause} :
    (c :: v).findSome? (·.assigned) = none ↔ c.assigned = none ∧ ∀ b ∈ v, b.assigned = none := by
  simp [List.findSome?_eq_none_iff]

/-- Some text is the key of no label. -/
theorem exists_unlisted (clauses : List Clause) : ∃ key, ∀ c ∈ clauses, c.lists key = false := by
  let keys : List String := clauses.flatMap fun c => c.labels.filterMap Label.key?
  let longer := 'a' :: (keys.map String.toList).flatten
  refine ⟨String.ofList longer, fun c hc => ?_⟩
  rw [Clause.lists, List.any_eq_false]
  intro l hl hfor
  have hkey : String.ofList longer ∈ keys :=
    List.mem_flatMap.2 ⟨c, hc, List.mem_filterMap.2 ⟨l, hl, beq_iff_eq.1 hfor⟩⟩
  have hmem : longer ∈ keys.map String.toList := List.mem_map.2 ⟨_, hkey, String.toList_ofList⟩
  have hlen := (List.sublist_flatten_of_mem hmem).length_le
  simp only [longer, List.length_cons] at hlen
  omega

theorem following_default_eq (h : ∀ u c v, clauses = u ++ c :: v → (∀ b ∈ u, b.isDefault = false) →
      c.isDefault = true → c.assigned = none → ∀ b ∈ v, b.assigned = none) :
    following (·.isDefault) clauses = (clauses.find? (·.isDefault)).bind (·.assigned) := by
  cases hfind : clauses.find? (·.isDefault) with
  | none => exact following_of_none fun b hb => by simpa using List.find?_eq_none.1 hfind b hb
  | some d =>
    obtain ⟨u, v, rfl, hu, hd⟩ := exists_split_of_find? hfind
    rw [following_of_split hu hd, Option.bind_some]
    cases hassigned : d.assigned with
    | none => exact findSome?_cons_eq_none.2 ⟨hassigned, h u d v rfl hu hd hassigned⟩
    | some result => rw [List.findSome?_cons, hassigned]

/-- For every value the first assignments that follow are those of the statement, exactly if no
assignment is taken for one of an earlier clause. -/
theorem following_eq_assigned_iff (clauses : List Clause) :
    (∀ key, (following (·.lists key) clauses).or (following (·.isDefault) clauses) =
      assigned clauses key) ↔ Recovered clauses := by
  constructor
  · intro h
    constructor
    · intro u c v hsplit hu hc hnone
      obtain ⟨key, hkey⟩ := exists_unlisted clauses
      have hnolist : clauses.find? (·.lists key) = none :=
        List.find?_eq_none.2 fun b hb => by simp [hkey b hb]
      have hsame := h key
      rw [following_of_none hkey, Option.none_or, assigned, hnolist, Option.none_or, hsplit,
        following_of_split hu hc, find?_of_split hu hc, Option.bind_some, hnone] at hsame
      exact (findSome?_cons_eq_none.1 hsame).2
    · intro key u c v hsplit hu hc hnone
      have hsame := h key
      have hfirst : clauses.find? (·.lists key) = some c := hsplit ▸ find?_of_split hu hc
      have hfollowing : following (·.lists key) clauses = (c :: v).findSome? (·.assigned) :=
        hsplit ▸ following_of_split hu hc
      rw [assigned, hfirst, Option.some_or, Option.bind_some, hnone, hfollowing,
        Option.or_eq_none_iff] at hsame
      refine ⟨(findSome?_cons_eq_none.1 hsame.1).2, fun d hd => ?_⟩
      obtain ⟨u', v', hsplit', hu', hd'⟩ := exists_split_of_find? hd
      have hdefault := hsame.2
      rw [hsplit', following_of_split hu' hd'] at hdefault
      exact (findSome?_cons_eq_none.1 hdefault).1
  · intro h key
    have hdefault := following_default_eq h.default
    rw [hdefault, assigned]
    cases hfirst : clauses.find? (·.lists key) with
    | none =>
      have hnolist : following (·.lists key) clauses = none :=
        following_of_none fun b hb => by simpa using List.find?_eq_none.1 hfirst b hb
      rw [hnolist, Option.none_or, Option.none_or]
    | some c =>
      obtain ⟨u, v, hsplit, hu, hc⟩ := exists_split_of_find? hfirst
      have hfollowing : following (·.lists key) clauses = (c :: v).findSome? (·.assigned) :=
        hsplit ▸ following_of_split hu hc
      rw [hfollowing, Option.some_or, Option.bind_some]
      cases hassigned : c.assigned with
      | some result => rw [List.findSome?_cons, hassigned]; rfl
      | none =>
        obtain ⟨hbehind, hnone⟩ := h.values key u c v hsplit hu hc hassigned
        rw [findSome?_cons_eq_none.2 ⟨hassigned, hbehind⟩, Option.none_or]
        cases hfind : clauses.find? (·.isDefault) with
        | none => rfl
        | some d => exact hnone d hfind

/-- Clauses without an assignment may stand behind all others, as long as there is no default. -/
theorem recovered_of_behind {front back : List Clause} (hfront : ∀ c ∈ front, c.assigned ≠ none)
    (hback : ∀ c ∈ back, c.assigned = none) (hdefault : ∀ c ∈ front ++ back, c.isDefault = false) :
    Recovered (front ++ back) := by
  have hbehind {u v : List Clause} {c : Clause} (hsplit : front ++ back = u ++ c :: v)
      (hnone : c.assigned = none) : ∀ b ∈ v, b.assigned = none := by
    rcases List.append_eq_append_iff.1 hsplit with ⟨m, rfl, hm⟩ | ⟨m, rfl, hm⟩
    · exact fun b hb => hback b (by simp [hm, hb])
    · cases m with
      | nil =>
        rw [List.nil_append] at hm
        exact fun b hb => hback b (hm ▸ List.mem_cons_of_mem _ hb)
      | cons d m =>
        obtain ⟨rfl, -⟩ := List.cons.inj hm
        exact absurd hnone (hfront c (by simp))
  constructor
  · exact fun u c v hsplit _ _ hnone => hbehind hsplit hnone
  · intro key u c v hsplit _ _ hnone
    refine ⟨hbehind hsplit hnone, fun d hd => ?_⟩
    have := hdefault d (List.mem_of_find?_eq_some hd)
    rw [List.find?_some hd] at this
    cases this

/-! ### When there is something to select from -/

theorem following_isSome (kind : Clause → Bool) {c : Clause} (hmem : c ∈ clauses)
    (hkind : kind c = true) (hassigned : c.assigned.isSome = true) :
    (following kind clauses).isSome = true := by
  cases hfirst : clauses.find? kind with
  | none => exact absurd hkind (List.find?_eq_none.1 hfirst c hmem)
  | some d =>
    obtain ⟨u, v, rfl, hu, hd⟩ := exists_split_of_find? hfirst
    rw [following_of_split hu hd, List.findSome?_isSome_iff]
    refine ⟨c, ?_, hassigned⟩
    rcases List.mem_append.1 hmem with hc | hc
    · exact absurd hkind (by simp [hu c hc])
    · exact hc

/-- Without assignments nothing but labels is collected. -/
theorem foldl_unassigned (hnone : ∀ c ∈ clauses, c.assigned = none) (arms : Arms) :
    (clauses.foldl Clause.step arms).cases = arms.cases ∧
      (clauses.foldl Clause.step arms).default = arms.default := by
  induction clauses generalizing arms with
  | nil => exact ⟨rfl, rfl⟩
  | cons c rest ih =>
    obtain ⟨hcases, hdefault, -, -⟩ := foldl_labels c.labels arms
    have hstep : Clause.step arms c = c.labels.foldl Label.step arms := by
      rw [Clause.step, hnone c List.mem_cons_self]
    obtain ⟨ihcases, ihdefault⟩ := ih (fun b hb => hnone b (List.mem_cons_of_mem _ hb)) (Clause.step arms c)
    rw [List.foldl_cons, ihcases, ihdefault, hstep]
    exact ⟨hcases, hdefault⟩

/-- A run leaves nothing exactly if nothing is assigned. -/
theorem isEmpty_foldl_iff (hlabels : ∀ c ∈ clauses, c.labels ≠ []) :
    ((clauses.foldl Clause.step {}).cases.isEmpty &&
      (clauses.foldl Clause.step {}).default.isNone) = true ↔ ∀ c ∈ clauses, c.assigned = none := by
  obtain ⟨hdefault, hselect⟩ := foldl_clauses clauses {}
  rw [Bool.and_eq_true, List.isEmpty_iff, Option.isNone_iff_eq_none]
  constructor
  · rintro ⟨hcases, hnone⟩ c hc
    rw [← Option.not_isSome_iff_eq_none]
    intro hassigned
    obtain ⟨l, hl⟩ := List.exists_mem_of_ne_nil _ (hlabels c hc)
    cases l with
    | default =>
      have hsome := following_isSome (·.isDefault) hc (List.any_eq_true.2 ⟨_, hl, rfl⟩) hassigned
      have hfollowing : following (·.isDefault) clauses = none := by
        rw [hnone] at hdefault
        exact hdefault.symm
      rw [hfollowing] at hsome
      cases hsome
    | value v =>
      have hkind : c.lists (literalKey v) = true :=
        List.any_eq_true.2 ⟨_, hl, beq_self_eq_true _⟩
      have hsome := following_isSome (·.lists (literalKey v)) hc hkind hassigned
      have hfollowing : following (·.lists (literalKey v)) clauses = none := by
        have hkey := hselect (literalKey v)
        rw [Arms.select?, hcases] at hkey
        exact hkey.symm
      rw [hfollowing] at hsome
      cases hsome
  · exact fun hnone => foldl_unassigned hnone {}

end JsxToJinja.Switch
