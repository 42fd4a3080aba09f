import JsxToJinja.Proofs.Jinja.Writing

/-! Member paths in templates: a leading `props` goes, some variables have another name, and a length
at the end is a filter. -/
namespace JsxToJinja.Code
open JsxToJinja.Text JsxToJinja.Jinja

namespace MemberPath

def own (p : MemberPath) : List Char × List (Bool × List Char) :=
  match p.links with
  | [] => (p.head, [])
  | l :: rest => if p.head = "props".toList then (l.2, rest) else (p.head, l :: rest)

def variableOf (w : List Char) : List Char × List Step :=
  if w = "undefined".toList ∨ w = "null".toList then ("none".toList, [])
  else if w = "children".toList then ("_component_context".toList, [.member "content".toList])
  else (w, [])

def memberSteps : List (List Char) → List Step
  | [] => []
  | [w] => [if w = "length".toList then .filter w else .member w]
  | w :: rest => .member w :: memberSteps rest

def steps (p : MemberPath) : List Step :=
  (variableOf p.own.1).2 ++ memberSteps (p.own.2.map (·.2))

def formula (p : MemberPath) : Formula := .access (variableOf p.own.1).1 p.steps

/-- Its names are names of templates, `not` is not the first of them, only the last is `length`, and
`props` has no `props` with members of its own. -/
structure Plain (p : MemberPath) : Prop where
  dollar : '$' ∉ p.text
  head : p.own.1 ≠ "not".toList
  length : "length".toList ∉ (p.own.2.map (·.2)).dropLast
  props : p.own.1 = "props".toList → p.own.2 = []

instance (p : MemberPath) : Decidable p.Plain :=
  decidable_of_iff ('$' ∉ p.text ∧ p.own.1 ≠ "not".toList ∧
      "length".toList ∉ (p.own.2.map (·.2)).dropLast ∧
      (p.own.1 = "props".toList → p.own.2 = []))
    ⟨fun ⟨hd, hh, hl, hp⟩ => ⟨hd, hh, hl, hp⟩, fun ⟨hd, hh, hl, hp⟩ => ⟨hd, hh, hl, hp⟩⟩

end MemberPath

/-! ### What is written -/

namespace MemberPath

def stepText : Step → List Char
  | .member w => '.' :: w
  | .filter w => '|' :: w

def accessText (head : List Char) (steps : List Step) : List Char := head ++ steps.flatMap stepText

def jinja (p : MemberPath) : List Char := accessText (variableOf p.own.1).1 p.steps

/-- A member as it is written: a length becomes a filter wherever it stands. -/
def writtenStep (w : List Char) : Step := if w = "length".toList then .filter w else .member w

theorem memberSteps_eq {ws : List (List Char)} (h : "length".toList ∉ ws.dropLast) :
    memberSteps ws = ws.map writtenStep := by
  induction ws with
  | nil => rfl
  | cons w ws ih =>
    cases ws with
    | nil => rfl
    | cons v ws =>
      simp only [List.dropLast_cons_cons, List.mem_cons, not_or] at h
      have hw : writtenStep w = .member w := if_neg (Ne.symm h.1)
      rw [memberSteps, ih h.2, List.map_cons (a := w), hw]
      simp

/-- What may stand behind a path. -/
def Behind (rest : List Char) : Prop :=
  ∀ c ∈ rest.head?, isIdentifierChar c = false ∧ c ≠ '.' ∧ c ≠ '?'

theorem linkText_cons (l : Bool × List Char) :
    linkText l = '.' :: l.2 ∨ linkText l = '?' :: '.' :: l.2 := by
  obtain ⟨optional, v⟩ := l
  cases optional with
  | false => exact .inl (by simp [linkText])
  | true => exact .inr (by simp [linkText])

theorem Behind.name {rest : List Char} (h : Behind rest) :
    ∀ c ∈ rest.head?, isIdentifierChar c = false := fun c hc => (h c hc).1

theorem linkText_head (l : Bool × List Char) (t : List Char) :
    ∀ c ∈ (linkText l ++ t).head?, isIdentifierChar c = false := by
  intro c hc
  rcases linkText_cons l with hl | hl <;> rw [hl] at hc <;> cases hc <;> decide

/-- No name goes on into the links behind it. -/
theorem links_head {rest : List Char} (h : ∀ c ∈ rest.head?, isIdentifierChar c = false)
    (links : List (Bool × List Char)) :
    ∀ c ∈ (links.flatMap linkText ++ rest).head?, isIdentifierChar c = false := by
  cases links with
  | nil => exact h
  | cons l links =>
    rw [List.flatMap_cons, List.append_assoc]
    exact linkText_head l _

section
variable {names : NameMap}

/-- Both ways to reach a member are written as a dot. -/
theorem writeFrom_link (write : Writer) (out : List Char) (l : Bool × List Char) (t : List Char) :
    writeFrom names write 0 out (linkText l ++ t) =
      writeFrom names write 0 ('.' :: out) (l.2 ++ t) := by
  rcases linkText_cons l with hl | hl
  · rw [hl, List.cons_append]
    exact writeFrom_char write out (by decide) (by decide) (by decide) (by decide) _
  · have hat : operatorAt? ('?' :: '.' :: (l.2 ++ t)) = some (2, .member) := rfl
    rw [hl, List.cons_append, List.cons_append, writeFrom_at write (by decide) hat]
    rfl

theorem writeWord_member (out w rest : List Char) :
    writeWord names ('.' :: out) w rest = ((stepText (writtenStep w)).reverse ++ out, 0) := by
  rw [writeWord, if_pos (by rfl), writtenStep]
  by_cases h : w = "length".toList
  · rw [if_pos (by simpa using h), if_pos h, h]
    rfl
  · rw [if_neg (by simpa using h), if_neg h]
    simp [stepText]

/-- Members of a path are written one after another. -/
theorem writeFrom_links (write : Writer) {links : List (Bool × List Char)}
    (hl : ∀ l ∈ links, isIdentifier l.2 = true) {rest : List Char}
    (hr : ∀ c ∈ rest.head?, isIdentifierChar c = false) (out : List Char) :
    writeFrom names write 0 out (links.flatMap linkText ++ rest) =
      writeFrom names write 0
        (((links.map fun l => writtenStep l.2).flatMap stepText).reverse ++ out) rest := by
  induction links generalizing out with
  | nil => rfl
  | cons l links ih =>
    rw [List.flatMap_cons, List.append_assoc, writeFrom_link,
      writeFrom_word write _ (hl l (by simp)) (links_head hr links), writeWord_member,
      ih fun m hm => hl m (by simp [hm])]
    simp

/-- A `props` goes with the link behind it. -/
theorem writeFrom_props (write : Writer) {out : List Char} (ho : out.head? ≠ some '.')
    (l : Bool × List Char) (t : List Char) :
    writeFrom names write 0 out ("props".toList ++ (linkText l ++ t)) =
      writeFrom names write 0 out (l.2 ++ t) := by
  rw [writeFrom_word write out (by decide) (linkText_head l t)]
  rcases linkText_cons l with hl | hl
  · have hword : writeWord names out "props".toList (linkText l ++ t) = (out, 1) := by
      simp [writeWord, ho, hl, startsWith]
    rw [hword, hl, List.cons_append]
    rfl
  · have hword : writeWord names out "props".toList (linkText l ++ t) = (out, 2) := by
      simp [writeWord, ho, hl, startsWith]
    rw [hword, hl, List.cons_append, List.cons_append]
    rfl

end

/-- A variable is written as the template calls it, with its access behind it. -/
theorem writeFrom_variable (write : Writer) {w rest out : List Char} (hw : isIdentifier w = true)
    (hr : ∀ c ∈ rest.head?, isIdentifierChar c = false) (ho : out.head? ≠ some '.')
    (hp : w = "props".toList → ∀ c ∈ rest.head?, c ≠ '.' ∧ c ≠ '?') :
    writeFrom {} write 0 out (w ++ rest) =
      writeFrom {} write 0 ((accessText (variableOf w).1 (variableOf w).2).reverse ++ out) rest := by
  have hword : writeWord {} out w rest =
      ((accessText (variableOf w).1 (variableOf w).2).reverse ++ out, 0) := by
    have hdot : startsWith rest ['.'] = true → w ≠ "props".toList := by
      intro hs he
      obtain ⟨t, rfl⟩ := List.isPrefixOf_iff_prefix.1 hs
      exact (hp he '.' rfl).1 rfl
    have hlink : startsWith rest ['?', '.'] = true → w ≠ "props".toList := by
      intro hs he
      obtain ⟨t, rfl⟩ := List.isPrefixOf_iff_prefix.1 hs
      exact (hp he '?' rfl).2 rfl
    rw [writeWord, if_neg (by simpa using ho), variableOf]
    by_cases habsent : w = "undefined".toList ∨ w = "null".toList
    · rw [if_pos (by simpa using habsent), if_pos habsent]
      rfl
    · rw [if_neg (by simpa using habsent), if_neg (by grind), if_neg (by grind), if_neg habsent]
      by_cases hchildren : w = "children".toList
      · rw [if_pos (by simpa using hchildren), if_pos hchildren]
        rfl
      · rw [if_neg (by simpa using hchildren), if_neg hchildren]
        simp [accessText, NameMap.resolve, Dict.get?]
  rw [writeFrom_word write out hw hr, hword]

theorem own_names (p : MemberPath) :
    isIdentifier p.own.1 = true ∧ ∀ l ∈ p.own.2, isIdentifier l.2 = true := by
  have hlinks := p.links_names
  rw [own]
  split
  · exact ⟨p.head_name, by simp⟩
  · rename_i l rest he
    rw [he] at hlinks
    split
    · exact ⟨hlinks l (by simp), fun m hm => hlinks m (by simp [hm])⟩
    · exact ⟨p.head_name, hlinks⟩

/-- A leading `props` leaves no trace. -/
theorem writeFrom_own (write : Writer) (p : MemberPath) {rest out : List Char}
    (ho : out.head? ≠ some '.') :
    writeFrom {} write 0 out (p.text ++ rest) =
      writeFrom {} write 0 out (p.own.1 ++ (p.own.2.flatMap linkText ++ rest)) := by
  rw [text, List.append_assoc, own]
  split
  · rename_i he
    rw [he]
  · rename_i l links he
    rw [he]
    by_cases hprops : p.head = "props".toList
    · rw [if_pos hprops, hprops, List.flatMap_cons, List.append_assoc, writeFrom_props write ho]
    · rw [if_neg hprops]

/-- A plain path is written as the name and the steps it stands for. -/
theorem Plain.writeFrom_eq {p : MemberPath} (hp : p.Plain) (write : Writer) {rest out : List Char}
    (hr : Behind rest) (ho : out.head? ≠ some '.') :
    writeFrom {} write 0 out (p.text ++ rest) =
      writeFrom {} write 0 (p.jinja.reverse ++ out) rest := by
  obtain ⟨hhead, hlinks⟩ := p.own_names
  have hprops : p.own.1 = "props".toList →
      ∀ c ∈ (p.own.2.flatMap linkText ++ rest).head?, c ≠ '.' ∧ c ≠ '?' := by
    intro he
    rw [hp.props he]
    exact fun c hc => (hr c hc).2
  have hsteps : memberSteps (p.own.2.map (·.2)) = p.own.2.map fun l => writtenStep l.2 := by
    rw [memberSteps_eq hp.length, List.map_map]
    rfl
  rw [writeFrom_own write p ho, writeFrom_variable write hhead (links_head hr.name _) ho hprops,
    writeFrom_links write hlinks hr.name, jinja, steps, hsteps]
  simp [accessText]

/-! ### Names -/

/-- An identifier that templates have too. -/
structure IsTemplateName (w : List Char) : Prop where
  identifier : isIdentifier w = true
  dollar : '$' ∉ w

theorem mem_text_of_own (p : MemberPath) :
    (∀ c ∈ p.own.1, c ∈ p.text) ∧ ∀ l ∈ p.own.2, ∀ c ∈ l.2, c ∈ p.text := by
  have hlink {l : Bool × List Char} (hl : l ∈ p.links) {c : Char} (hc : c ∈ l.2) : c ∈ p.text := by
    simp only [text, List.mem_append, List.mem_flatMap]
    exact .inr ⟨l, hl, by simp [linkText, hc]⟩
  have hhead {c : Char} (hc : c ∈ p.head) : c ∈ p.text := by simp [text, hc]
  rw [own]
  split
  · exact ⟨fun c hc => hhead hc, by simp⟩
  · rename_i l rest he
    rw [he] at hlink
    split
    · exact ⟨fun c hc => hlink (by simp) hc, fun m hm c hc => hlink (by simp [hm]) hc⟩
    · exact ⟨fun c hc => hhead hc, fun m hm c hc => hlink hm hc⟩

theorem name_mem_of_mem_memberSteps {ws : List (List Char)} {s : Step} (h : s ∈ memberSteps ws) :
    s.name ∈ ws := by
  induction ws with
  | nil => cases h
  | cons w ws ih =>
    cases ws with
    | nil =>
      obtain rfl := List.mem_singleton.1 h
      split <;> simp [Step.name]
    | cons v ws =>
      rcases List.mem_cons.1 h with rfl | h
      · simp [Step.name]
      · exact List.mem_cons_of_mem _ (ih h)

theorem isTemplateName_variableOf {w : List Char} (h : IsTemplateName w) :
    IsTemplateName (variableOf w).1 ∧ ∀ s ∈ (variableOf w).2, IsTemplateName s.name := by
  rw [variableOf]
  split
  · exact ⟨⟨by decide, by decide⟩, by simp⟩
  · split
    · refine ⟨⟨by decide, by decide⟩, fun s hs => ?_⟩
      obtain rfl := List.mem_singleton.1 hs
      exact ⟨by decide, by decide⟩
    · exact ⟨h, by simp⟩

/-- A plain path has names that a template can use. -/
theorem Plain.names {p : MemberPath} (hp : p.Plain) :
    IsTemplateName (variableOf p.own.1).1 ∧ ∀ s ∈ p.steps, IsTemplateName s.name := by
  obtain ⟨hhead, hlinks⟩ := p.own_names
  obtain ⟨hin, hlin⟩ := p.mem_text_of_own
  obtain ⟨hvar, hsteps⟩ := isTemplateName_variableOf ⟨hhead, fun h => hp.dollar (hin _ h)⟩
  refine ⟨hvar, fun s hs => ?_⟩
  rcases List.mem_append.1 hs with hs | hs
  · exact hsteps s hs
  · obtain ⟨l, hl, he⟩ := List.mem_map.1 (name_mem_of_mem_memberSteps hs)
    rw [← he]
    exact ⟨hlinks l hl, fun h => hp.dollar (hlin l hl _ h)⟩

theorem edged_append_steps {t : List Char} (ht : Edged t) {steps : List Step}
    (hs : ∀ s ∈ steps, isIdentifier s.name = true) : Edged (t ++ steps.flatMap stepText) := by
  induction steps generalizing t with
  | nil => simpa using ht
  | cons s steps ih =>
    have hname := edged_of_isIdentifier (hs s (by simp))
    have hone : Edged (t ++ stepText s) := by
      cases s with
      | member w => exact ht.between hname ['.']
      | filter w => exact ht.between hname ['|']
    rw [List.flatMap_cons, ← List.append_assoc]
    exact ih hone fun s' hs' => hs s' (by simp [hs'])

theorem Plain.edged {p : MemberPath} (hp : p.Plain) : Edged p.jinja :=
  edged_append_steps (edged_of_isIdentifier hp.names.1.identifier)
    fun s hs => (hp.names.2 s hs).identifier

end MemberPath

end JsxToJinja.Code
