import JsxToJinja.Classes.Expression
import JsxToJinja.Proofs.Classes.Conditions

/-! Arguments of a class helper: the classes they stand for once properties have values, and the texts
they are written as. -/
namespace JsxToJinja
open JsxToJinja.Text JsxToJinja.Code

namespace Code.Expression

/-- A text, alone, under a condition, or one of two. -/
def isClasses : Expression → Bool
  | str _ => true
  | join .conj c (str _) => c.isCondition
  | cond c (str _) (str _) => c.isCondition
  | _ => false

/-- Classes of a value. What is false adds none. -/
def classes (env : String → Json) : Expression → List String
  | str s => tokens s
  | join .conj c a => if c.truth env then a.classes env else []
  | cond c a b => if c.truth env then a.classes env else b.classes env
  | _ => []

def tested : Expression → List Expression
  | join .conj c _ => [c]
  | cond c _ _ => [c]
  | _ => []

theorem hasMarkup_of_isClasses {e : Expression} (h : e.isClasses = true) : e.hasMarkup = false := by
  match e with
  | str _ => rfl
  | join .conj c (str _) => simp [hasMarkup, hasMarkup_of_isCondition (e := c) h]
  | cond c (str _) (str _) => simp [hasMarkup, hasMarkup_of_isCondition (e := c) h]

end Code.Expression

namespace ClassExpression

/-- Keys of an object whose value is true. A key that comes again has its last value, and `__proto__`
is no key. -/
def objectClasses (env : String → Json) : List (String × Expression) → List String
  | [] => []
  | (key, c) :: rest =>
    (if key ∉ rest.map (·.1) ∧ key ≠ "__proto__" ∧ c.truth env = true then tokens key else []) ++
      objectClasses env rest

/-- What adds classes: a value or an object. -/
inductive Part where
  | value (e : Expression)
  | object (entries : List (String × Expression))

namespace Part

def classes (env : String → Json) : Part → List String
  | value e => e.classes env
  | object entries => objectClasses env entries

/-- The classes of a part when every entry of an object counts, whatever its key. -/
def allClasses (env : String → Json) : Part → List String
  | value e => e.classes env
  | object entries => entries.flatMap fun x => if x.2.truth env then tokens x.1 else []

def conditions : Part → List Expression
  | value e => e.tested
  | object entries => entries.map (·.2)

/-- Keys of an object differ, and none is `__proto__`. -/
def WellKeyed : Part → Prop
  | value _ => True
  | object entries => (entries.map (·.1)).Nodup ∧ "__proto__" ∉ entries.map (·.1)

variable {env : String → Json} {d : String}

theorem mem_allClasses_object {entries : List (String × Expression)} :
    d ∈ (object entries).allClasses env ↔ ∃ x ∈ entries, d ∈ tokens x.1 ∧ x.2.truth env = true := by
  rw [allClasses, List.mem_flatMap]
  refine exists_congr fun x => and_congr_right fun _ => ?_
  cases hx : x.2.truth env <;> simp

/-- The last entry of a key counts, so nothing but entries gives classes. -/
theorem mem_allClasses_of_mem_classes {p : Part} (h : d ∈ p.classes env) : d ∈ p.allClasses env := by
  cases p with
  | value e => exact h
  | object entries =>
    rw [mem_allClasses_object]
    induction entries with
    | nil => cases h
    | cons x rest ih =>
      rw [classes, objectClasses, List.mem_append] at h
      rcases h with h | h
      · split at h
        · rename_i hx
          exact ⟨x, by simp, h, hx.2.2⟩
        · cases h
      · obtain ⟨y, hy, hd⟩ := ih h
        exact ⟨y, by simp [hy], hd⟩

/-- With different keys no entry of an object takes back another one, so each one counts. -/
theorem mem_classes_of_mem_allClasses {p : Part} (hk : p.WellKeyed) (h : d ∈ p.allClasses env) :
    d ∈ p.classes env := by
  cases p with
  | value e => exact h
  | object entries =>
    rw [mem_allClasses_object] at h
    obtain ⟨hnodup, hproto⟩ := hk
    obtain ⟨x, hx, hd, htrue⟩ := h
    induction entries with
    | nil => cases hx
    | cons y rest ih =>
      simp only [List.map_cons, List.nodup_cons, List.mem_cons, not_or] at hnodup hproto
      rw [classes, objectClasses, List.mem_append]
      rcases List.mem_cons.1 hx with rfl | hx
      · rw [if_pos ⟨hnodup.1, Ne.symm hproto.1, htrue⟩]
        exact .inl hd
      · exact .inr (ih hnodup.2 hproto.2 hx)

end Part

/-- Arrays and calls of class helpers list arguments. -/
inductive Argument where
  | part (p : Part)
  | several (items : List Argument)

namespace Argument

mutual

def parts : Argument → List Part
  | part p => [p]
  | several items => partsAll items

def partsAll : List Argument → List Part
  | [] => []
  | a :: rest => a.parts ++ partsAll rest

end

theorem parts_several (items : List Argument) : (several items).parts = items.flatMap parts := by
  rw [parts]
  induction items with
  | nil => rfl
  | cons a rest ih => rw [partsAll, ih, List.flatMap_cons]

def classes (env : String → Json) (a : Argument) : List String := a.parts.flatMap (·.classes env)

def allClasses (env : String → Json) (a : Argument) : List String := a.parts.flatMap (·.allClasses env)

def conditions (a : Argument) : List Expression := a.parts.flatMap Part.conditions

def WellKeyed (a : Argument) : Prop := ∀ p ∈ a.parts, p.WellKeyed

variable {env : String → Json} {d : String}

@[simp] theorem allClasses_part (p : Part) : (part p).allClasses env = p.allClasses env := by
  simp [allClasses, parts]

@[simp] theorem conditions_part (p : Part) : (part p).conditions = p.conditions := by
  simp [conditions, parts]

theorem mem_allClasses_several {items : List Argument} :
    d ∈ (several items).allClasses env ↔ ∃ a ∈ items, d ∈ a.allClasses env := by
  simp only [allClasses, parts_several, List.flatMap_assoc, List.mem_flatMap]

theorem mem_conditions_several {items : List Argument} {c : Expression} :
    c ∈ (several items).conditions ↔ ∃ a ∈ items, c ∈ a.conditions := by
  simp only [conditions, parts_several, List.flatMap_assoc, List.mem_flatMap]

theorem mem_allClasses_of_mem_classes {a : Argument} (h : d ∈ a.classes env) : d ∈ a.allClasses env := by
  obtain ⟨p, hp, hd⟩ := List.mem_flatMap.1 h
  exact List.mem_flatMap.2 ⟨p, hp, Part.mem_allClasses_of_mem_classes hd⟩

/-- Where keys differ, every entry counts. -/
theorem WellKeyed.mem_classes {a : Argument} (hk : a.WellKeyed) (h : d ∈ a.allClasses env) :
    d ∈ a.classes env := by
  obtain ⟨p, hp, hd⟩ := List.mem_flatMap.1 h
  exact List.mem_flatMap.2 ⟨p, hp, Part.mem_classes_of_mem_allClasses (hk p hp) hd⟩

end Argument

/-! ### Texts -/

/-- An entry of an object: classes in quotes, and their condition. -/
structure Entry where
  key : String
  condition : Expression
  quoted : List Char
  text : List Char
  before : List Char
  gap : List Char
  space : List Char
  after : List Char
  quotes : Quoted key.toList quoted
  reads : Reads 0 condition text
  isCondition : condition.isCondition = true
  blank_before : Blank before
  blank_gap : Blank gap
  blank_space : Blank space
  blank_after : Blank after

/-- An argument in a list, with the blanks around it. -/
structure Slot where
  argument : Argument
  before : List Char
  text : List Char
  after : List Char
  blank_before : Blank before
  blank_after : Blank after

def Entry.inner (x : Entry) : List Char := x.quoted ++ (x.gap ++ ':' :: (x.space ++ x.text))

def Entry.raw (x : Entry) : List Char := x.before ++ (x.inner ++ x.after)

def Slot.raw (s : Slot) : List Char := s.before ++ (s.text ++ s.after)

def listed (raws : List (List Char)) : List Char := [','].intercalate raws

/-- Text of an argument. -/
inductive Writes : Argument → List Char → Prop where
  | value {e : Expression} {t : List Char} : e.isClasses = true → Reads 0 e t →
      Writes (.part (.value e)) t
  | object (entries : List Entry) :
      Writes (.part (.object (entries.map fun x => (x.key, x.condition))))
        ('\x7b' :: (listed (entries.map Entry.raw) ++ ['\x7d']))
  | array {slots : List Slot} : (∀ s ∈ slots, Writes s.argument s.text) →
      Writes (.several (slots.map Slot.argument)) ('[' :: (listed (slots.map Slot.raw) ++ [']']))
  | call {name : String} {p : List Char} {slots : List Slot} : name ∈ classHelpers → Blank p →
      (∀ s ∈ slots, Writes s.argument s.text) →
      Writes (.several (slots.map Slot.argument))
        (name.toList ++ (p ++ '(' :: (listed (slots.map Slot.raw) ++ [')'])))

theorem isIdentifier_of_mem_classHelpers :
    ∀ name ∈ classHelpers, isIdentifier name.toList = true := by decide

/-- An item of a list, with the blanks around it: commas stand inside brackets and literals. -/
structure IsItem (r : List Char) : Prop where
  sealed : Sealed [','] r
  ne_nil : trim r ≠ []

/-- Items with commas between them close their brackets when each of them does. -/
theorem sealed_listed {rs : List (List Char)} (h : ∀ r ∈ rs, IsItem r) : Sealed [] (listed rs) := by
  induction rs with
  | nil => exact .nil
  | cons r rs ih =>
    have hr : Sealed [] r := (h r (by simp)).sealed.mono (by simp)
    have hrest := ih fun s hs => h s (by simp [hs])
    cases rs with
    | nil => simpa [listed, List.intercalate] using hr
    | cons s rs =>
      have htext : listed (r :: s :: rs) = r ++ ',' :: listed (s :: rs) := by
        simp [listed, List.intercalate]
      rw [htext]
      exact hr.append (.plain (by simp) (by decide) hrest)

/-- What is listed comes apart at the commas. -/
theorem splitTopLevel_listed {rs : List (List Char)} (h : ∀ r ∈ rs, IsItem r) :
    splitTopLevel (listed rs) [','] = rs.map trim := by
  have hcut : Cutting [','] ',' := ⟨by simp, by decide, by decide⟩
  rw [listed, splitTopLevel_intercalate hcut (by simp) fun r hr => (h r hr).sealed,
    List.filter_eq_self]
  intro t ht
  obtain ⟨r, hr, rfl⟩ := List.mem_map.1 ht
  simpa using (h r hr).ne_nil

namespace Entry
variable (x : Entry)

theorem trimmed : Trimmed x.inner := by
  have := (x.quotes.edged.between x.reads.edged (x.gap ++ ':' :: x.space)).trimmed
  simpa [inner] using this

theorem ne_nil : x.inner ≠ [] := by
  simp [inner]

theorem sealed : Sealed [','] x.raw := by
  have hpad {p : List Char} (hp : Blank p) : Sealed [','] p := sealed_of_blank hp (by decide)
  have hmark := Expression.hasMarkup_of_isCondition x.isCondition
  have htext : Sealed [','] x.text := x.reads.sealed (by decide) (by simp [hmark])
  have hinner : Sealed [','] x.inner :=
    x.quotes.sealed.append ((hpad x.blank_gap).append
      (.plain (by decide) (by decide) ((hpad x.blank_space).append htext)))
  exact (hpad x.blank_before).append (hinner.append (hpad x.blank_after))

theorem trim_raw : trim x.raw = x.inner := trim_pad x.blank_before x.trimmed x.blank_after

theorem isItem : IsItem x.raw := ⟨x.sealed, by rw [x.trim_raw]; exact x.ne_nil⟩

end Entry

/-- Texts of arguments have no blanks at their ends and hold commas only inside brackets and
literals. -/
structure Closed (t : List Char) : Prop where
  trimmed : Trimmed t
  ne_nil : t ≠ []
  sealed : Sealed [','] t

/-- A closed text is an item, whatever blanks stand around it. -/
theorem Closed.isItem {u t v : List Char} (h : Closed t) (hu : Blank u) (hv : Blank v) :
    IsItem (u ++ (t ++ v)) ∧ trim (u ++ (t ++ v)) = t := by
  have hpad {p : List Char} (hp : Blank p) : Sealed [','] p := sealed_of_blank hp (by decide)
  have htrim := trim_pad hu h.trimmed hv
  exact ⟨⟨(hpad hu).append (h.sealed.append (hpad hv)), by rw [htrim]; exact h.ne_nil⟩, htrim⟩

theorem isItem_slots {slots : List Slot} (h : ∀ s ∈ slots, Closed s.text) :
    ∀ r ∈ slots.map Slot.raw, IsItem r := by
  intro r hr
  obtain ⟨s, hs, rfl⟩ := List.mem_map.1 hr
  exact ((h s hs).isItem s.blank_before s.blank_after).1

theorem trim_slots {slots : List Slot} (h : ∀ s ∈ slots, Closed s.text) :
    (slots.map Slot.raw).map trim = slots.map Slot.text := by
  rw [List.map_map]
  exact List.map_congr_left fun s hs => ((h s hs).isItem s.blank_before s.blank_after).2

theorem isItem_entries (entries : List Entry) : ∀ r ∈ entries.map Entry.raw, IsItem r := by
  intro r hr
  obtain ⟨x, -, rfl⟩ := List.mem_map.1 hr
  exact x.isItem

/-- A list in brackets is closed. -/
theorem closed_bracket {rs : List (List Char)} {o c : Char} (hc : closingFor? o = some c)
    (h : ∀ r ∈ rs, IsItem r) : Closed (o :: (listed rs ++ [c])) := by
  refine ⟨?_, by simp, Sealed.bracket hc (sealed_listed h)⟩
  obtain ⟨rfl, rfl⟩ | ⟨rfl, rfl⟩ | ⟨rfl, rfl⟩ := closingFor?_cases hc
  all_goals exact trimmed_cons_concat (by decide) (by decide) _

/-- A call of a class helper is closed. -/
theorem closed_call {name : String} {p : List Char} {rs : List (List Char)} (hn : name ∈ classHelpers)
    (hp : Blank p) (h : ∀ r ∈ rs, IsItem r) :
    Closed (name.toList ++ (p ++ '(' :: (listed rs ++ [')']))) := by
  have hname := isIdentifier_of_mem_classHelpers name hn
  have hgroup : Edged ('(' :: (listed rs ++ [')'])) := edged_cons_concat (by decide) (by decide) _
  refine ⟨((edged_of_isIdentifier hname).between hgroup p).trimmed, by simp, ?_⟩
  exact (sealed_name (by decide) hname).append ((sealed_pad (by decide) hp).append
    (Sealed.bracket (by decide) (sealed_listed h)))

/-- The text of an argument can stand in brackets among others. -/
theorem Writes.closed {a : Argument} {t : List Char} (h : Writes a t) : Closed t := by
  induction h with
  | value hc hr =>
    have hmark := Expression.hasMarkup_of_isClasses hc
    exact ⟨hr.edged.trimmed, hr.edged.ne_nil, hr.sealed (by decide) (by simp [hmark])⟩
  | object entries => exact closed_bracket (by decide) (isItem_entries entries)
  | array _ ih => exact closed_bracket (by decide) (isItem_slots ih)
  | call hn hp _ ih => exact closed_call hn hp (isItem_slots ih)

end ClassExpression

end JsxToJinja
