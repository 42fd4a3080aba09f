import Mathlib.Data.List.Forall2
import JsxToJinja.Json.Decode
import JsxToJinja.Proofs.Base.ResolvedClasses
import JsxToJinja.Proofs.Json.ReadBack

/-! Values that come out of a text and go back into one: they nest no deeper than the text did,
their objects are sorted, and they stay the same exactly when each of their numbers does. -/
namespace JsxToJinja.Json

/-- A list is read item by item. -/
theorem mapM_eq_some_iff {f : α → Option β} {l : List α} {l' : List β} :
    l.mapM f = some l' ↔ List.Forall₂ (fun a b => f a = some b) l l' := by
  induction l generalizing l' with
  | nil => cases l' <;> simp
  | cons a l ih =>
    rw [List.mapM_cons]
    cases ha : f a with
    | none => simp [List.forall₂_cons_left_iff, ha]
    | some b =>
      cases hl : l.mapM f with
      | none =>
        simp [List.forall₂_cons_left_iff, ha, ← ih, hl]
      | some bs => simp [List.forall₂_cons_left_iff, ha, ← ih, hl, eq_comm]

theorem exists_of_mem_mapM {f : α → Option β} {l : List α} {l' : List β} (h : l.mapM f = some l')
    {b : β} (hb : b ∈ l') : ∃ a ∈ l, f a = some b := by
  have hall := mapM_eq_some_iff.1 h
  clear h
  induction hall with
  | nil => cases hb
  | @cons a c l l' hac _ ih =>
    rcases List.mem_cons.1 hb with rfl | hb
    · exact ⟨a, by simp, hac⟩
    · obtain ⟨x, hx, hxb⟩ := ih hb
      exact ⟨x, by simp [hx], hxb⟩

namespace Written

theorem itemValues?_eq (items : List Written) : itemValues? items = items.mapM value? := by
  induction items with
  | nil => rfl
  | cons v rest ih => rw [itemValues?, ih, List.mapM_cons]; rfl

theorem fieldValues?_eq (fields : List (String × Written)) :
    fieldValues? fields = fields.mapM fun f => f.2.value?.map fun v => (f.1, v) := by
  induction fields with
  | nil => rfl
  | cons f rest ih =>
    rw [fieldValues?, ih, List.mapM_cons]
    cases f.2.value? <;> rfl

end Written

/-- The fields of every object in a value are sorted, each key once. -/
inductive Sorted : Json → Prop where
  | null : Sorted .null
  | bool (b : Bool) : Sorted (.bool b)
  | num (x : Number) : Sorted (.num x)
  | str (s : String) : Sorted (.str s)
  | arr {items : List Json} : (∀ v ∈ items, Sorted v) → Sorted (.arr items)
  | obj {fields : Fields} : (fields.Pairwise fun e f => e.1 < f.1) → (∀ f ∈ fields, Sorted f.2) →
    Sorted (.obj fields)

/-- Every number in a value is read back from what is written for it. -/
inductive Stable : Json → Prop where
  | null : Stable .null
  | bool (b : Bool) : Stable (.bool b)
  | num {x : Number} : Number.parse? x.text.toList = some x → Stable (.num x)
  | str (s : String) : Stable (.str s)
  | arr {items : List Json} : (∀ v ∈ items, Stable v) → Stable (.arr items)
  | obj {fields : List (String × Json)} : (∀ f ∈ fields, Stable f.2) → Stable (.obj fields)

/-- A whole number that fits a word is read back. -/
theorem Stable.int {n : Int} (hlo : Number.leastWord ≤ n) (hhi : n < Number.wordLimit) :
    Stable (.num (.int n)) := .num (Number.parse?_spelled hlo hhi)

mutual

def isStable : Json → Bool
  | .null => true
  | .bool _ => true
  | .num x => Number.parse? x.text.toList = some x
  | .str _ => true
  | .arr items => areStable items
  | .obj fields => haveStable fields

def areStable : List Json → Bool
  | [] => true
  | v :: rest => isStable v && areStable rest

def haveStable : List (String × Json) → Bool
  | [] => true
  | (_, v) :: rest => isStable v && haveStable rest

end

theorem areStable_eq (items : List Json) : areStable items = items.all isStable := by
  induction items with
  | nil => rfl
  | cons v rest ih => rw [areStable, ih, List.all_cons]

theorem haveStable_eq (fields : List (String × Json)) :
    haveStable fields = fields.all fun f => isStable f.2 := by
  induction fields with
  | nil => rfl
  | cons f rest ih => rw [haveStable, ih, List.all_cons]

theorem Stable.isStable {v : Json} (h : Stable v) : isStable v = true := by
  induction h with
  | null | bool | str => rfl
  | num hx => simpa [Json.isStable] using hx
  | arr _ ih => simpa [Json.isStable, areStable_eq] using ih
  | obj _ ih => simpa [Json.isStable, haveStable_eq] using ih

mutual

theorem stable_of_isStable : ∀ {v : Json}, isStable v = true → Stable v
  | .null, _ => .null
  | .bool b, _ => .bool b
  | .num _, h => .num (of_decide_eq_true h)
  | .str s, _ => .str s
  | .arr _, h => .arr (stable_of_areStable h)
  | .obj _, h => .obj (stable_of_haveStable h)

theorem stable_of_areStable : ∀ {items : List Json}, areStable items = true → ∀ v ∈ items, Stable v
  | [], _ => by simp
  | _ :: _, h => List.forall_mem_cons.2
    ⟨stable_of_isStable (Bool.and_eq_true_iff.1 h).1,
      stable_of_areStable (Bool.and_eq_true_iff.1 h).2⟩

theorem stable_of_haveStable : ∀ {fields : List (String × Json)}, haveStable fields = true →
    ∀ f ∈ fields, Stable f.2
  | [], _ => by simp
  | _ :: _, h => List.forall_mem_cons.2
    ⟨stable_of_isStable (Bool.and_eq_true_iff.1 h).1,
      stable_of_haveStable (Bool.and_eq_true_iff.1 h).2⟩

end

instance (v : Json) : Decidable (Stable v) :=
  decidable_of_iff (isStable v = true) ⟨stable_of_isStable, Stable.isStable⟩

/-- Sorted fields come back just when each of their values does. -/
theorem fieldValues?_written_iff {fields : Fields} (hs : fields.Pairwise fun e f => e.1 < f.1) :
    (Written.fieldValues? (writtenFields fields)).map Dict.ofList = some fields ↔
      ∀ f ∈ fields, f.2.written.value? = some f.2 := by
  rw [Written.fieldValues?_eq, writtenFields_eq]
  constructor
  · intro h
    obtain ⟨read, hread, hof⟩ := Option.map_eq_some_iff.1 h
    rw [mapM_eq_some_iff, List.forall₂_map_left_iff] at hread
    -- the keys are the same, so what was read is sorted as well
    have hkeys : fields.map (·.1) = read.map (·.1) := by
      refine List.forall₂_eq_eq_eq ▸ List.forall₂_map_left_iff.2 (List.forall₂_map_right_iff.2 ?_)
      refine hread.imp fun f e he => ?_
      obtain ⟨v, -, rfl⟩ := Option.map_eq_some_iff.1 he
      rfl
    have hsorted : read.Pairwise fun e f => e.1 < f.1 := by
      have h := (List.pairwise_map (f := Prod.fst) (R := (· < ·))).2 hs
      rw [hkeys] at h
      exact List.pairwise_map.1 h
    rw [Dict.ofList_of_sorted hsorted] at hof
    subst hof
    rw [List.forall₂_same] at hread
    intro f hf
    obtain ⟨v, hv, he⟩ := Option.map_eq_some_iff.1 (hread f hf)
    rw [hv, ← he]
  · intro h
    refine Option.map_eq_some_iff.2 ⟨fields, ?_, Dict.ofList_of_sorted hs⟩
    rw [mapM_eq_some_iff, List.forall₂_map_left_iff, List.forall₂_same]
    intro f hf
    exact Option.map_eq_some_iff.2 ⟨f.2, h f hf, rfl⟩

/-- A value that came out of a text comes back from its own text exactly when its numbers do. -/
theorem Sorted.value?_written_iff {v : Json} (hv : Sorted v) :
    v.written.value? = some v ↔ Stable v := by
  induction hv with
  | null => exact ⟨fun _ => .null, fun _ => rfl⟩
  | bool b => exact ⟨fun _ => .bool b, fun _ => rfl⟩
  | num x =>
    rw [written]
    constructor
    · intro h
      refine .num ?_
      cases hx : Number.parse? x.text.toList with
      | none =>
        rw [hx] at h
        cases h
      | some y =>
        rw [hx] at h
        cases h
        rfl
    · intro h
      cases h with
      | num hx =>
        rw [hx]
        rfl
  | str s => exact ⟨fun _ => .str s, fun _ => rfl⟩
  | @arr items _ ih =>
    have hitems : Written.itemValues? (writtenItems items) = some items ↔
        ∀ v ∈ items, v.written.value? = some v := by
      rw [writtenItems_eq, Written.itemValues?_eq, mapM_eq_some_iff, List.forall₂_map_left_iff,
        List.forall₂_same]
    rw [written, Written.value?, Option.map_eq_some_iff]
    constructor
    · rintro ⟨read, hread, he⟩
      cases he
      exact .arr fun v hv => (ih v hv).1 (hitems.1 hread v hv)
    · intro h
      cases h with
      | arr h => exact ⟨items, hitems.2 fun v hv => (ih v hv).2 (h v hv), rfl⟩
  | @obj fields hs _ ih =>
    have hfields := fieldValues?_written_iff hs
    have hobject : (written (.obj fields)).value? = some (.obj fields) ↔
        (Written.fieldValues? (writtenFields fields)).map Dict.ofList = some fields := by
      rw [written, Written.value?]
      cases Written.fieldValues? (writtenFields fields) <;> simp [object]
    rw [hobject, hfields]
    constructor
    · intro h
      exact .obj fun f hf => (ih f hf).1 (h f hf)
    · intro h f hf
      cases h with
      | obj h => exact (ih f hf).2 (h f hf)

/-! ### What comes out of a text -/

/-- At most so many arrays and objects in each other. -/
inductive Written.Within : Nat → Written → Prop where
  | null {n : Nat} : Within n .null
  | bool {n : Nat} (b : Bool) : Within n (.bool b)
  | num {n : Nat} (x : Number) : Within n (.num x)
  | str {n : Nat} (s : String) : Within n (.str s)
  | arr {n : Nat} {items : List Written} : (∀ v ∈ items, Within n v) → Within (n + 1) (.arr items)
  | obj {n : Nat} {fields : List (String × Written)} :
    (∀ f ∈ fields, Within n f.2) → Within (n + 1) (.obj fields)
  | unread {n : Nat} : Within n .unread

private theorem within_succ {n : Nat} {v : Written} (h : ∀ m, n = m + 1 → v.Within n) :
    (within (n + 1) v).Within n := by
  cases n with
  | zero => exact .unread
  | succ m => exact h m rfl

private theorem ofFields_within {n : Nat} {fields : List (Option String × Written)}
    (h : ∀ f ∈ fields, f.2.Within n) : (Written.ofFields fields).Within (n + 1) := by
  rw [Written.ofFields]
  split
  · rename_i read hread
    refine .obj fun g hg => ?_
    obtain ⟨f, hf, hfg⟩ := exists_of_mem_mapM hread hg
    obtain ⟨key, -, rfl⟩ := Option.map_eq_some_iff.1 hfg
    exact h f hf
  · exact .unread

section

variable {fuel n : Nat}
  (hvalue : ∀ t w r, readValue? fuel (n + 1) t = some (w, r) → w.Within n)
include hvalue

private theorem readItems?_within
    (hitems : ∀ t ws r, readItems? fuel (n + 1) t = some (ws, r) → ∀ w ∈ ws, w.Within n)
    (t : List Char) (ws : List Written) (r : List Char)
    (h : readItems? (fuel + 1) (n + 1) t = some (ws, r)) : ∀ w ∈ ws, w.Within n := by
  obtain ⟨⟨v, u⟩, hv, h⟩ := Option.bind_eq_some_iff.1 h
  have hfirst := hvalue _ _ _ hv
  dsimp only at h
  split at h
  · obtain ⟨⟨rest, u'⟩, hrest, he⟩ := Option.bind_eq_some_iff.1 h
    cases he
    exact List.forall_mem_cons.2 ⟨hfirst, hitems _ _ _ hrest⟩
  · cases h
    exact List.forall_mem_singleton.2 hfirst
  · cases h

private theorem readFields?_within
    (hfields : ∀ t fs r, readFields? fuel (n + 1) t = some (fs, r) → ∀ f ∈ fs, f.2.Within n)
    (t : List Char) (fs : List (Option String × Written)) (r : List Char)
    (h : readFields? (fuel + 1) (n + 1) t = some (fs, r)) : ∀ f ∈ fs, f.2.Within n := by
  rw [readFields?] at h
  split at h
  · obtain ⟨⟨key, u⟩, -, h⟩ := Option.bind_eq_some_iff.1 h
    dsimp only at h
    split at h
    · obtain ⟨⟨v, u'⟩, hv, h⟩ := Option.bind_eq_some_iff.1 h
      have hfirst := hvalue _ _ _ hv
      dsimp only at h
      split at h
      · obtain ⟨⟨rest, u''⟩, hrest, he⟩ := Option.bind_eq_some_iff.1 h
        cases he
        exact List.forall_mem_cons.2 ⟨hfirst, hfields _ _ _ hrest⟩
      · cases h
        exact List.forall_mem_singleton.2 hfirst
      · cases h
    · cases h
  · cases h

end

private theorem readValue?_within {fuel : Nat}
    (hitems : ∀ n t ws r, readItems? fuel (n + 1) t = some (ws, r) → ∀ w ∈ ws, w.Within n)
    (hfields : ∀ n t fs r, readFields? fuel (n + 1) t = some (fs, r) → ∀ f ∈ fs, f.2.Within n)
    (n : Nat) (t : List Char) (w : Written) (r : List Char)
    (h : readValue? (fuel + 1) (n + 1) t = some (w, r)) : w.Within n := by
  rw [readValue?] at h
  split at h
  · cases h
    exact .null
  · cases h
    exact .bool true
  · cases h
    exact .bool false
  · obtain ⟨⟨s, u⟩, -, he⟩ := Option.map_eq_some_iff.1 h
    cases he
    cases s
    · exact .unread
    · exact .str _
  · split at h
    · cases h
      exact within_succ fun m hm => hm ▸ .arr (by simp)
    · obtain ⟨⟨items, u⟩, hread, he⟩ := Option.map_eq_some_iff.1 h
      cases he
      refine within_succ fun m hm => ?_
      subst hm
      exact .arr (hitems m _ _ _ hread)
  · split at h
    · cases h
      exact within_succ fun m hm => hm ▸ .obj (by simp)
    · obtain ⟨⟨items, u⟩, hread, he⟩ := Option.map_eq_some_iff.1 h
      cases he
      refine within_succ fun m hm => ?_
      subst hm
      exact ofFields_within (hfields m _ _ _ hread)
  · obtain ⟨⟨x, u⟩, -, he⟩ := Option.map_eq_some_iff.1 h
    cases he
    cases x
    · exact .unread
    · exact .num _

private theorem read_within (fuel : Nat) :
    (∀ n t w r, readValue? fuel (n + 1) t = some (w, r) → w.Within n) ∧
    (∀ n t ws r, readItems? fuel (n + 1) t = some (ws, r) → ∀ w ∈ ws, w.Within n) ∧
    ∀ n t fs r, readFields? fuel (n + 1) t = some (fs, r) → ∀ f ∈ fs, f.2.Within n := by
  induction fuel with
  | zero => simp [readValue?, readItems?, readFields?]
  | succ fuel ih =>
    obtain ⟨hvalue, hitems, hfields⟩ := ih
    exact ⟨readValue?_within hitems hfields, fun n => readItems?_within (hvalue n) (hitems n),
      fun n => readFields?_within (hvalue n) (hfields n)⟩

/-- A text holds fewer arrays and objects in each other than may be nested. -/
theorem within_of_parse? {s : String} {w : Written} (h : Written.parse? s = some w) :
    w.Within 127 := by
  rw [Written.parse?] at h
  split at h
  · rename_i v rest hread
    split at h
    · cases h
      exact (read_within _).1 127 _ _ _ hread
    · cases h
  · cases h

/-- A value that a text can hold, so many arrays and objects deep. -/
structure Held (n : Nat) (v : Json) : Prop where
  within : Within n v
  sorted : Sorted v

/-- Each field that is read was written under its key. -/
theorem exists_of_mem_fieldValues? {fields : List (String × Written)} {read : List (String × Json)}
    (h : Written.fieldValues? fields = some read) {e : String × Json} (he : e ∈ Dict.ofList read) :
    ∃ f ∈ fields, f.1 = e.1 ∧ f.2.value? = some e.2 := by
  rw [Written.fieldValues?_eq] at h
  obtain ⟨f, hf, hfe⟩ := exists_of_mem_mapM h (Dict.mem_of_mem_ofList he)
  obtain ⟨v, hv, rfl⟩ := Option.map_eq_some_iff.1 hfe
  exact ⟨f, hf, rfl, hv⟩

/-- An object whose values a text can hold is one that a text can hold, one level deeper. -/
theorem held_ofList {n : Nat} {fields : List (String × Written)} {read : List (String × Json)}
    (h : ∀ f ∈ fields, ∀ v, f.2.value? = some v → Held n v)
    (hread : Written.fieldValues? fields = some read) : Held (n + 1) (.obj (Dict.ofList read)) := by
  have hheld : ∀ e ∈ Dict.ofList read, Held n e.2 := fun e he =>
    let ⟨f, hf, _, hv⟩ := exists_of_mem_fieldValues? hread he
    h f hf e.2 hv
  exact ⟨.obj fun e he => (hheld e he).within,
    .obj (Dict.sorted_ofList read) fun e he => (hheld e he).sorted⟩

/-- A value that is read can be held as deep as its text is nested. -/
theorem Written.Within.held {n : Nat} {w : Written} (hw : w.Within n) :
    ∀ v, w.value? = some v → Held n v := by
  induction hw with
  | null => rintro v ⟨⟩; exact ⟨.null, .null⟩
  | bool b => rintro v ⟨⟩; exact ⟨.bool b, .bool b⟩
  | num x => rintro v ⟨⟩; exact ⟨.num x, .num x⟩
  | str s => rintro v ⟨⟩; exact ⟨.str s, .str s⟩
  | arr _ ih =>
    intro v hv
    rw [Written.value?, Written.itemValues?_eq] at hv
    obtain ⟨items, hitems, rfl⟩ := Option.map_eq_some_iff.1 hv
    have hheld : ∀ v ∈ items, Held _ v := fun v hv =>
      let ⟨w, hw, hwv⟩ := exists_of_mem_mapM hitems hv
      ih w hw v hwv
    exact ⟨.arr fun v hv => (hheld v hv).within, .arr fun v hv => (hheld v hv).sorted⟩
  | obj _ ih =>
    intro v hv
    rw [Written.value?] at hv
    obtain ⟨read, hread, rfl⟩ := Option.map_eq_some_iff.1 hv
    exact held_ofList ih hread
  | unread => rintro v ⟨⟩

end JsxToJinja.Json
