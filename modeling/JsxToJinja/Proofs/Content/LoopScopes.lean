import JsxToJinja.Proofs.Content.CallbackParameters

/-! Member paths under nested callbacks. A callback that takes fields out of its item puts them behind the
item wherever the path starts with one of their names, also when a callback further in has bound the name
anew. -/
namespace JsxToJinja.Content
open JsxToJinja.Text JsxToJinja.Code
open JsxToJinja.Qualified (Identifier Around Turns qualifiedName IsSpace takeWhile_name)

/-! ### Member paths -/

/-- A name and the members behind it, each of which may let a missing value pass. -/
structure MemberPath where
  head : Identifier
  members : List (Bool × Identifier)

namespace MemberPath

def membersText (ms : List (Bool × Identifier)) : List Char :=
  ms.flatMap fun m => (if m.1 then ['?'] else []) ++ '.' :: m.2.chars

def text (m : MemberPath) : List Char := m.head.chars ++ membersText m.members

/-- Every path of the grammar is a chain of members. -/
theorem exists_of_isPath {t : List Char} (h : IsPath t) : ∃ m : MemberPath, m.text = t := by
  induction h with
  | @name t ht => exact ⟨⟨⟨t, ht⟩, []⟩, by simp [text, membersText]⟩
  | @dot t r ht _ ih =>
    obtain ⟨m, rfl⟩ := ih
    exact ⟨⟨⟨t, ht⟩, (false, m.head) :: m.members⟩, by simp [text, membersText]⟩
  | @link t r ht _ ih =>
    obtain ⟨m, rfl⟩ := ih
    exact ⟨⟨⟨t, ht⟩, (true, m.head) :: m.members⟩, by simp [text, membersText]⟩

/-- No name goes on into the members behind it. -/
theorem ends_membersText (ms : List (Bool × Identifier)) : Qualified.Ends (membersText ms) := by
  intro c hc
  cases ms with
  | nil => cases hc
  | cons m ms =>
    obtain ⟨b, x⟩ := m
    cases b with
    | false =>
      cases hc
      decide
    | true =>
      cases hc
      decide

theorem takeWhile_text (m : MemberPath) : m.text.takeWhile isIdentifierChar = m.head.chars :=
  takeWhile_name m.head.valid (ends_membersText m.members)

theorem dropWhile_text (m : MemberPath) : m.text.dropWhile isIdentifierChar = membersText m.members := by
  have hsplit := List.takeWhile_append_dropWhile (p := isIdentifierChar) (l := m.text)
  rw [takeWhile_text] at hsplit
  exact List.append_cancel_left hsplit

theorem eq_of_chars {x y : Identifier} (h : x.chars = y.chars) : x = y := by
  cases x
  cases y
  cases h
  rfl

/-- A path is known by its text. -/
theorem text_injective {m n : MemberPath} (h : m.text = n.text) : m = n := by
  obtain ⟨x, ms⟩ := m
  obtain ⟨y, ns⟩ := n
  have hheads {x y : Identifier} {ms ns : List (Bool × Identifier)}
      (h : text ⟨x, ms⟩ = text ⟨y, ns⟩) : x = y ∧ membersText ms = membersText ns := by
    have hhead := congrArg (List.takeWhile isIdentifierChar) h
    rw [takeWhile_text, takeWhile_text] at hhead
    obtain rfl := eq_of_chars hhead
    exact ⟨rfl, List.append_cancel_left h⟩
  induction ms generalizing x y ns with
  | nil =>
    obtain ⟨rfl, hmembers⟩ := hheads h
    cases ns with
    | nil => rfl
    | cons b ns => simp [membersText] at hmembers
  | cons a ms ih =>
    obtain ⟨rfl, hmembers⟩ := hheads h
    cases ns with
    | nil => simp [membersText] at hmembers
    | cons b ns =>
      obtain ⟨link, z⟩ := a
      obtain ⟨link', z'⟩ := b
      have hrest : link = link' ∧ text ⟨z, ms⟩ = text ⟨z', ns⟩ := by
        cases link <;> cases link' <;> simp [membersText] at hmembers
        · exact ⟨rfl, hmembers⟩
        · exact ⟨rfl, hmembers⟩
      obtain ⟨rfl, rfl⟩ := MemberPath.mk.inj (ih _ _ _ hrest.2)
      rw [hrest.1]

def behindItem (m : MemberPath) : MemberPath := ⟨Qualified.Phrase.itemName, (false, m.head) :: m.members⟩

theorem text_behindItem (m : MemberPath) : m.behindItem.text = "item".toList ++ '.' :: m.text := by
  simp [behindItem, text, membersText, Qualified.Phrase.itemName]

/-- Only the first name of a path can turn into a field of the item. -/
theorem turns_text {names : List String} {item : List Char} (m : MemberPath) :
    Turns names item m.text (qualifiedName names item m.head.chars ++ membersText m.members) := by
  have hmembers {w w' : List Char} (hw : Turns names item w w') (ms : List (Bool × Identifier)) :
      Turns names item (w ++ membersText ms) (w' ++ membersText ms) := by
    induction ms generalizing w w' with
    | nil => simpa [membersText] using hw
    | cons a ms ih =>
      obtain ⟨link, x⟩ := a
      have hlink : Qualified.IsPlain (if link then ['?'] else []) := by
        cases link with
        | true => exact fun c hc => by revert c; decide
        | false => exact fun c hc => absurd hc List.not_mem_nil
      have hblank : IsSpace [] := fun c hc => absurd hc List.not_mem_nil
      simpa [membersText] using ih (hw.member hlink hblank x.valid (.inl rfl))
  exact hmembers (.name m.head.valid) m.members

/-! ### Callbacks -/

def through (m : MemberPath) (p : Parameters) : MemberPath :=
  if p.keys.contains (String.ofList m.head.chars) then m.behindItem else m

end MemberPath

def Parameters.rewrite (p : Parameters) (code : String) : String :=
  if p.keys.isEmpty then code else qualify p.keys p.itemVar code

theorem Parameters.itemVar_of_keys {p : Parameters} (h : p.keys ≠ []) : p.itemVar = "item" := by
  rw [Parameters.keys] at h
  rw [Parameters.itemVar]
  cases hp : p.list.pattern with
  | named x => simp [hp, Pattern.keys] at h
  | fields fs => rfl

namespace MemberPath

theorem rewrite_text (p : Parameters) (m : MemberPath) :
    p.rewrite (String.ofList m.text) = String.ofList (m.through p).text := by
  rw [Parameters.rewrite, through]
  by_cases hkeys : p.keys = []
  · simp [hkeys]
  · rw [if_neg (by simpa using hkeys), p.itemVar_of_keys hkeys, m.turns_text.qualify_eq, qualifiedName]
    split
    · rw [text_behindItem, text, List.append_assoc, List.cons_append]
    · rfl

theorem foldl_rewrite_text (ps : List Parameters) (m : MemberPath) :
    ps.foldl (fun code p => p.rewrite code) (String.ofList m.text) =
      String.ofList (ps.foldl through m).text := by
  induction ps generalizing m with
  | nil => rfl
  | cons p ps ih => rw [List.foldl_cons, List.foldl_cons, rewrite_text, ih]

/-- A path only grows. -/
theorem length_foldl_through (ps : List Parameters) (m : MemberPath) :
    m.members.length ≤ (ps.foldl through m).members.length := by
  induction ps generalizing m with
  | nil => exact Nat.le_refl _
  | cons p ps ih =>
    refine Nat.le_trans ?_ (ih (m.through p))
    rw [through]
    split
    · exact Nat.le_succ _
    · exact Nat.le_refl _

/-- A path that is no longer than it was has met none of its names. -/
theorem notMem_keys_of_length {ps : List Parameters} {m : MemberPath}
    (h : (ps.foldl through m).members.length = m.members.length) :
    ∀ p ∈ ps, String.ofList m.head.chars ∉ p.keys := by
  induction ps with
  | nil => simp
  | cons p ps ih =>
    rw [List.foldl_cons, through] at h
    rw [List.forall_mem_cons]
    by_cases hp : String.ofList m.head.chars ∈ p.keys
    · rw [if_pos (by simpa using hp)] at h
      have hlen : m.members.length + 1 ≤ _ := length_foldl_through ps m.behindItem
      omega
    · rw [if_neg (by simpa using hp)] at h
      exact ⟨hp, ih h⟩

theorem foldl_through_eq_self {ps : List Parameters} {m : MemberPath}
    (h : ∀ p ∈ ps, String.ofList m.head.chars ∉ p.keys) : ps.foldl through m = m := by
  induction ps with
  | nil => rfl
  | cons p ps ih =>
    obtain ⟨hp, hps⟩ := List.forall_mem_cons.1 h
    rw [List.foldl_cons, through, if_neg (by simpa using hp)]
    exact ih hps

theorem foldl_through_eq_self_iff {ps : List Parameters} {m : MemberPath} :
    ps.foldl through m = m ↔ ∀ p ∈ ps, String.ofList m.head.chars ∉ p.keys :=
  ⟨fun h => notMem_keys_of_length (by rw [h]), foldl_through_eq_self⟩

/-- A path that is one member longer stands behind one item. -/
theorem foldl_through_eq_behindItem {ps : List Parameters} {m : MemberPath}
    (h : (ps.foldl through m).members.length = m.members.length + 1) :
    ps.foldl through m = m.behindItem := by
  induction ps with
  | nil => simp at h
  | cons p ps ih =>
    rw [List.foldl_cons, through] at h ⊢
    split at h
    · rename_i hp
      rw [if_pos hp]
      exact foldl_through_eq_self (notMem_keys_of_length h)
    · rename_i hp
      rw [if_neg hp]
      exact ih h

end MemberPath

/-! ### Scopes -/

/-- Code stands in content itself, in the properties that are copied to the loop around a tag, or in an
object whose properties are spread. -/
inductive Place where
  | direct
  | copied
  | spread
deriving DecidableEq

/-- Variables of a loop: the item, and the position if it is counted. -/
structure LoopVars where
  item : String
  index : Option String := none
deriving DecidableEq

def Parameters.vars (p : Parameters) : LoopVars :=
  ⟨p.itemVar, p.list.index.map fun i => String.ofList i.2.1.chars⟩

/-- The item of the loop that `i` others stand in goes by its name there: no variable of these and no
position in its own loop has the same name. -/
def Visible (item : String) (i : Nat) (loops : List LoopVars) : Prop :=
  (∀ v ∈ loops.take i, v.item ≠ item) ∧ ∀ v ∈ loops.take (i + 1), v.index ≠ some item

instance (item : String) (i : Nat) (loops : List LoopVars) : Decidable (Visible item i loops) :=
  inferInstanceAs (Decidable (_ ∧ _))

/-- Code in content, with the variables of the loops around it, innermost first. -/
structure Found where
  loops : List LoopVars
  place : Place
  code : String
deriving DecidableEq

/-- Code as it is written, with the callbacks around it, innermost first, and what is left of it when the
properties are read without their `props.`. -/
structure Use where
  callbacks : List Parameters
  place : Place
  code : String
  read : String

def headName (code : String) : List Char := code.toList.takeWhile isIdentifierChar

/-- What code stands for if it starts with a name that the pattern binds. -/
def Parameters.meaning? (p : Parameters) (code : String) : Option String :=
  match p.list.pattern with
  | .named x => if x.chars = headName code then some code else none
  | .fields fs => (fs.find? fun f => f.2.name.chars == headName code).map fun f =>
      String.ofList ("item.".toList ++ (f.2.key.chars ++ code.toList.dropWhile isIdentifierChar))

namespace Use

/-- Callbacks that rewrite the code: all, the one of its own loop, or none. -/
def within (u : Use) : List Parameters :=
  match u.place with
  | .direct => u.callbacks
  | .copied => u.callbacks.take 1
  | .spread => []

def found (u : Use) : Found :=
  ⟨u.callbacks.map (·.vars), u.place, u.within.foldl (fun code p => p.rewrite code) u.read⟩

/-- The callback is the innermost one that binds the name which the code starts with, and binds it by its
first parameter. -/
structure BoundAt (u : Use) (i : Nat) (p : Parameters) : Prop where
  callback : u.callbacks[i]? = some p
  binds : (p.meaning? u.code).isSome = true
  innermost : ∀ q ∈ u.callbacks.take i, ∀ x ∈ q.names, x.chars ≠ headName u.code

/-- The code found is what the callback makes of the item, which goes by its name there. -/
def Keeps (i : Nat) (p : Parameters) (code : String) (f : Found) : Prop :=
  p.meaning? code = some f.code ∧ Visible p.itemVar i f.loops

/-- A named item is not among the fields that any of the callbacks takes out. A field has its own name,
its callback rewrites the code, and none further out takes out a field `item`. -/
def Undisturbed (u : Use) (i : Nat) : Pattern → Prop
  | .named x => ∀ q ∈ u.within, String.ofList x.chars ∉ q.keys
  | .fields fs =>
    (fs.find? fun f => f.2.name.chars == headName u.code).any
        (fun f => f.2.key.chars == f.2.name.chars) = true ∧
      i < u.within.length ∧ ∀ q ∈ u.within.drop (i + 1), "item" ∉ q.keys

/-- The item goes by its name where the code stands, and what stands for it there is not disturbed. -/
structure Safe (u : Use) (i : Nat) (p : Parameters) : Prop where
  visible : Visible p.itemVar i (u.callbacks.map (·.vars))
  undisturbed : u.Undisturbed i p.list.pattern

instance (u : Use) (i : Nat) : (p : Pattern) → Decidable (u.Undisturbed i p)
  | .named x => inferInstanceAs (Decidable (∀ q ∈ u.within, String.ofList x.chars ∉ q.keys))
  | .fields _ => inferInstanceAs (Decidable (_ ∧ _))

theorem safe_iff {u : Use} {i : Nat} {p : Parameters} : u.Safe i p ↔
    Visible p.itemVar i (u.callbacks.map (·.vars)) ∧ u.Undisturbed i p.list.pattern :=
  ⟨fun h => ⟨h.visible, h.undisturbed⟩, fun h => ⟨h.1, h.2⟩⟩

instance (u : Use) (i : Nat) (p : Parameters) : Decidable (u.Safe i p) :=
  decidable_of_iff _ safe_iff.symm

theorem within_eq_take (u : Use) : ∃ n, u.within = u.callbacks.take n := by
  rw [within]
  cases u.place with
  | direct => exact ⟨u.callbacks.length, (List.take_length).symm⟩
  | copied => exact ⟨1, rfl⟩
  | spread => exact ⟨0, rfl⟩

variable {u : Use} {m : MemberPath} {i : Nat} {p : Parameters}

theorem headName_eq (hm : u.code = String.ofList m.text) : headName u.code = m.head.chars := by
  rw [headName, hm, String.toList_ofList, m.takeWhile_text]

theorem code_found (hr : u.read = u.code) (hm : u.code = String.ofList m.text) :
    u.found.code = String.ofList (u.within.foldl MemberPath.through m).text := by
  rw [found, hr, hm]
  exact MemberPath.foldl_rewrite_text _ _

/-- A named item is found as it is written just where none of the callbacks takes out a field of its
name. -/
theorem named_iff (hr : u.read = u.code) (hm : u.code = String.ofList m.text) {x : Identifier}
    (hp : p.list.pattern = .named x) (hx : x.chars = m.head.chars) :
    p.meaning? u.code = some u.found.code ↔ ∀ q ∈ u.within, String.ofList x.chars ∉ q.keys := by
  rw [Parameters.meaning?, hp]
  dsimp only
  rw [headName_eq hm, if_pos hx, Option.some_inj, code_found hr hm, hm, String.ofList_inj, hx,
    ← MemberPath.foldl_through_eq_self_iff]
  exact ⟨fun h => (MemberPath.text_injective h).symm, fun h => by rw [h]⟩

/-- A field of the item, as a path. -/
theorem field_eq (hm : u.code = String.ofList m.text) {fs : List (Around × TakenField)}
    {f : Around × TakenField} (hp : p.list.pattern = .fields fs)
    (hf : (fs.find? fun f => f.2.name.chars == m.head.chars) = some f) :
    p.meaning? u.code = some (String.ofList
      (MemberPath.text ⟨Qualified.Phrase.itemName, (false, f.2.key) :: m.members⟩)) := by
  have hrest : u.code.toList.dropWhile isIdentifierChar = MemberPath.membersText m.members := by
    rw [hm, String.toList_ofList, m.dropWhile_text]
  rw [Parameters.meaning?, hp]
  dsimp only
  rw [headName_eq hm, hf, hrest]
  simp [MemberPath.text, MemberPath.membersText, Qualified.Phrase.itemName]

/-- A field taken out of the item is found as the item's field just when it keeps its name, and no
loop further out takes out a field called `item`. -/
theorem field_iff (hr : u.read = u.code) (hm : u.code = String.ofList m.text)
    (hi : u.callbacks[i]? = some p)
    (hcloser : ∀ q ∈ u.callbacks.take i, q.itemVar ≠ "item")
    {fs : List (Around × TakenField)} {f : Around × TakenField} (hp : p.list.pattern = .fields fs)
    (hf : (fs.find? fun f => f.2.name.chars == m.head.chars) = some f) :
    p.meaning? u.code = some u.found.code ↔ f.2.key.chars = f.2.name.chars ∧
      i < u.within.length ∧ ∀ q ∈ u.within.drop (i + 1), "item" ∉ q.keys := by
  have hname : f.2.name.chars = m.head.chars := by simpa using List.find?_some hf
  have hkeys : ∀ q ∈ u.callbacks.take i, q.keys = [] := by
    intro q hq
    by_contra hne
    exact hcloser q hq (q.itemVar_of_keys hne)
  obtain ⟨n, hn⟩ := u.within_eq_take
  have hfront : ∀ q ∈ u.within.take i, String.ofList m.head.chars ∉ q.keys := by
    intro q hq
    rw [hn, List.take_take] at hq
    rw [hkeys q (List.take_subset_take_left _ (Nat.min_le_left _ _) hq)]
    exact List.not_mem_nil
  have hkey : f.2.key.chars = f.2.name.chars → String.ofList m.head.chars ∈ p.keys := by
    intro hown
    rw [Parameters.keys, hp, ← hname, ← hown]
    exact List.mem_map_of_mem (List.mem_of_find?_eq_some hf)
  have htexts : MemberPath.text ⟨Qualified.Phrase.itemName, (false, f.2.key) :: m.members⟩ =
      (u.within.foldl MemberPath.through m).text ↔ u.within.foldl MemberPath.through m =
        ⟨Qualified.Phrase.itemName, (false, f.2.key) :: m.members⟩ :=
    ⟨fun h => (MemberPath.text_injective h).symm, fun h => by rw [h]⟩
  rw [field_eq hm hp hf, Option.some_inj, code_found hr hm, String.ofList_inj, htexts]
  -- The callbacks further in leave the path alone.
  have hskip : u.within.foldl MemberPath.through m = (u.within.drop i).foldl MemberPath.through m := by
    conv_lhs => rw [← List.take_append_drop i u.within]
    rw [List.foldl_append, MemberPath.foldl_through_eq_self hfront]
  rw [hskip]
  by_cases hlen : i < u.within.length
  · have hat : u.within[i] = p := by
      have hin : i < n := by
        rw [hn, List.length_take] at hlen
        omega
      have hsome : u.within[i]? = some p := by rw [hn, List.getElem?_take_of_lt hin, hi]
      exact (List.getElem?_eq_some_iff.1 hsome).2
    have hbehind (hown : f.2.key.chars = f.2.name.chars) :
        m.through p = m.behindItem ∧
          m.behindItem = ⟨Qualified.Phrase.itemName, (false, f.2.key) :: m.members⟩ := by
      rw [MemberPath.through, if_pos (by simpa using hkey hown), MemberPath.behindItem,
        MemberPath.eq_of_chars (hown.trans hname)]
      exact ⟨rfl, rfl⟩
    rw [List.drop_eq_getElem_cons hlen, hat]
    constructor
    · intro h
      have hone := MemberPath.foldl_through_eq_behindItem (by rw [h]; rfl)
      have hown : f.2.key.chars = f.2.name.chars := by
        rw [hone, MemberPath.behindItem] at h
        simp only [MemberPath.mk.injEq, List.cons.injEq, Prod.mk.injEq, true_and, and_true] at h
        rw [hname, h]
      rw [List.foldl_cons, (hbehind hown).1] at hone
      exact ⟨hown, hlen, MemberPath.foldl_through_eq_self_iff.1 hone⟩
    · rintro ⟨hown, -, hfar⟩
      rw [List.foldl_cons, (hbehind hown).1, MemberPath.foldl_through_eq_self hfar, (hbehind hown).2]
  · rw [List.drop_eq_nil_of_le (Nat.le_of_not_lt hlen), List.foldl_nil]
    refine iff_of_false (fun h => ?_) fun h => hlen h.2.1
    have := congrArg (fun m => m.members.length) h
    simp at this

/-- Code that a callback binds starts with a name. -/
theorem BoundAt.headName_ne_nil (hb : u.BoundAt i p) : headName u.code ≠ [] := by
  intro hnone
  have hbinds := hb.binds
  rw [Parameters.meaning?, hnone] at hbinds
  have hname (x : Identifier) : x.chars ≠ [] := ne_nil_of_isIdentifier x.valid
  cases hp : p.list.pattern with
  | named x => simp [hp, hname x] at hbinds
  | fields fs => simp [hp, hname] at hbinds

/-- Code is found as what it stands for just where the scopes around it are safe. -/
theorem BoundAt.keeps_iff (hb : u.BoundAt i p) (hr : u.read = u.code)
    (hm : u.code = String.ofList m.text) :
    Keeps i p u.code u.found ↔ u.Safe i p := by
  rw [Keeps, safe_iff, and_comm]
  refine and_congr_right fun hvisible => ?_
  have hbinds := hb.binds
  rw [Parameters.meaning?] at hbinds
  cases hp : p.list.pattern with
  | named x =>
    rw [hp] at hbinds
    dsimp only at hbinds
    refine named_iff hr hm hp ?_
    by_contra hne
    rw [headName_eq hm, if_neg hne] at hbinds
    cases hbinds
  | fields fs =>
    rw [hp, headName_eq hm, Option.isSome_map] at hbinds
    obtain ⟨f, hf⟩ := Option.isSome_iff_exists.1 hbinds
    have hitem : p.itemVar = "item" := by rw [Parameters.itemVar, hp]; rfl
    have hcloser : ∀ q ∈ u.callbacks.take i, q.itemVar ≠ "item" := by
      intro q hq
      rw [← hitem]
      exact hvisible.1 q.vars (by rw [found, ← List.map_take]; exact List.mem_map_of_mem hq)
    rw [Undisturbed, headName_eq hm, hf, field_iff hr hm hb.callback hcloser hp hf]
    simp

end Use

end JsxToJinja.Content
