import JsxToJinja.Proofs.Content.NestedTexts

/-! The reading of content ends. It goes on to shorter texts only, but for an alternative with one
operand, which is read from itself. Where no such text is met, the bound on the depth plays no part. -/
namespace JsxToJinja
open JsxToJinja.Text JsxToJinja.Code JsxToJinja.Markup

/-! ### Bindings over any reader -/

namespace Bindings

def valueBy (read : Reader) (t : List Char) : Reviewed (Option Content) :=
  let t := stripOuterParens t
  if t.isEmpty || Content.isNothing t || !renders t then pure none else do
    match ← Content.ofOperand read t with
    | [c] => pure (some c)
    | _ => pure none

def declareBy (read : Reader) (p : Preamble) (s : Scope) (m : Match) : Reviewed Scope := do
  let name := String.ofList (m.text p.masked 2)
  if (m.span? 3).isNone then pure { s with declared := s.declared ++ [name] }
  else
    let stop := Content.statementStop p.masked m.stop
    match ← valueBy read (trim (slice p.text m.stop stop)) with
    | some c => pure { s with bound := s.bound.set name c }
    | none => pure s

def assignmentsOfBy (read : Reader) (p : Preamble) (start stop : Nat) :
    List Match → Reviewed (List (String × Content))
  | [] => pure []
  | m :: rest => do
    let first := start + m.stop - 1
    let last := min (Content.statementStop p.masked first) stop
    let value ← valueBy read (trim (slice p.text first last))
    let others ← assignmentsOfBy read p start stop rest
    let name := String.ofList (m.text (slice p.masked start stop) 1)
    pure ((value.map fun c => (name, c)).toList ++ others)

def assignmentsBy (read : Reader) (p : Preamble) (start stop : Nat) :
    Reviewed (List (String × Content)) :=
  assignmentsOfBy read p start stop (assignment.findAll (slice p.masked start stop))

def conditionalBy (read : Reader) (p : Preamble) (s : Scope) (m : Match) : Reviewed Scope :=
  match balancedEnd? p.masked (m.stop - 1) with
  | none => pure s
  | some close => do
    let condition := String.ofList (stripProps (trim (slice p.text m.stop close)))
    let start := close + 1 + ((p.text.drop (close + 1)).takeWhile isBlank).length
    let stop := bodyStop p start
    let s := (← assignmentsBy read p start stop).foldl
      (assign fun old value => underCondition old condition value) s
    match elseBody? p (stop + 1) with
    | none => pure s
    | some (start, stop) =>
      pure ((← assignmentsBy read p start stop).foldl
        (assign fun old value => underElse old condition value) s)

def ofPreambleBy (read : Reader) (t : List Char) : Reviewed Bindings := do
  let p : Preamble := ⟨t, mask t⟩
  let s ← (declaration.findAll p.masked).foldlM (declareBy read p) {}
  let s ← (ifHead.findAll p.masked).foldlM (conditionalBy read p) s
  pure s.bound

theorem assignmentsOfBy_ofExpression (p : Preamble) (start stop : Nat) (ms : List Match) :
    assignmentsOfBy Content.ofExpression p start stop ms = assignmentsOf p start stop ms := by
  induction ms with
  | nil => rfl
  | cons m ms ih =>
    rw [assignmentsOfBy, assignmentsOf, ih]
    rfl

theorem ofPreambleBy_ofExpression (t : List Char) :
    ofPreambleBy Content.ofExpression t = ofPreamble t := by
  have hassign (p : Preamble) (start stop : Nat) :
      assignmentsBy Content.ofExpression p start stop = assignments p start stop :=
    assignmentsOfBy_ofExpression p start stop _
  have hconditional (p : Preamble) : conditionalBy Content.ofExpression p = conditional p := by
    funext s m
    generalize hscope : conditional p s m = scope
    simp only [conditionalBy, hassign]
    exact hscope
  rw [ofPreambleBy, ofPreamble]
  simp only [hconditional]
  rfl

/-! ### What bindings are read from -/

def valueTexts (t : List Char) : List (List Char) :=
  let t := stripOuterParens t
  if t.isEmpty || Content.isNothing t || !renders t then [] else Content.operandTexts t

def declarationTexts (p : Preamble) (m : Match) : List (List Char) :=
  if (m.span? 3).isNone then []
  else valueTexts (trim (slice p.text m.stop (Content.statementStop p.masked m.stop)))

def assignmentTexts (p : Preamble) (start stop : Nat) (m : Match) : List (List Char) :=
  let first := start + m.stop - 1
  valueTexts (trim (slice p.text first (min (Content.statementStop p.masked first) stop)))

def spanTexts (p : Preamble) (start stop : Nat) : List (List Char) :=
  (assignment.findAll (slice p.masked start stop)).flatMap (assignmentTexts p start stop)

def conditionalTexts (p : Preamble) (m : Match) : List (List Char) :=
  match balancedEnd? p.masked (m.stop - 1) with
  | none => []
  | some close =>
    let start := close + 1 + ((p.text.drop (close + 1)).takeWhile isBlank).length
    let stop := bodyStop p start
    spanTexts p start stop ++
      match elseBody? p (stop + 1) with
      | none => []
      | some (start, stop) => spanTexts p start stop

def preambleTexts (t : List Char) : List (List Char) :=
  let p : Preamble := ⟨t, mask t⟩
  (declaration.findAll p.masked).flatMap (declarationTexts p) ++
    (ifHead.findAll p.masked).flatMap (conditionalTexts p)

open Content (Asks)

theorem asks_valueBy (t : List Char) : Asks (fun read => valueBy read t) (valueTexts t) := by
  simp only [valueBy, valueTexts]
  split
  · exact .pure _
  · exact (Content.asks_ofOperand _).map _

theorem asks_declareBy (p : Preamble) (s : Scope) (m : Match) :
    Asks (fun read => declareBy read p s m) (declarationTexts p m) := by
  simp only [declareBy, declarationTexts]
  split
  · exact .pure _
  · exact (asks_valueBy _).map _

theorem asks_assignmentsBy (p : Preamble) (start stop : Nat) :
    Asks (fun read => assignmentsBy read p start stop) (spanTexts p start stop) := by
  simp only [assignmentsBy, spanTexts]
  induction assignment.findAll (slice p.masked start stop) with
  | nil => exact .pure _
  | cons m ms ih =>
    simp only [assignmentsOfBy, List.flatMap_cons]
    exact (asks_valueBy _).bind fun value => ih.map _

theorem asks_conditionalBy (p : Preamble) (s : Scope) (m : Match) :
    Asks (fun read => conditionalBy read p s m) (conditionalTexts p m) := by
  simp only [conditionalBy, conditionalTexts]
  cases balancedEnd? p.masked (m.stop - 1) with
  | none => exact .pure _
  | some close =>
    refine (asks_assignmentsBy p _ _).bind fun entries => ?_
    split
    · exact .pure _
    · exact (asks_assignmentsBy p _ _).map _

theorem asks_ofPreambleBy (t : List Char) :
    Asks (fun read => ofPreambleBy read t) (preambleTexts t) := by
  simp only [ofPreambleBy, preambleTexts]
  refine (Asks.foldlM (asks_declareBy _) _ _).bind fun s => ?_
  exact (Asks.foldlM (asks_conditionalBy _) _ _).map _

/-! ### Lengths -/

theorem length_le_of_mem_valueTexts {t u : List Char} (h : u ∈ valueTexts t) : u.length ≤ t.length := by
  rw [valueTexts] at h
  split at h
  · cases h
  · exact Nat.le_trans (Content.length_le_of_mem_operandTexts h) (length_stripOuterParens_le t)

private theorem length_le_of_mem_sliced {t u : List Char} {start stop : Nat}
    (h : u ∈ valueTexts (trim (slice t start stop))) : u.length ≤ t.length :=
  Nat.le_trans (length_le_of_mem_valueTexts h)
    (Nat.le_trans (length_trim_le _) (Nat.le_trans (length_slice_le _ _ _) (Nat.sub_le _ _)))

theorem length_le_of_mem_spanTexts {p : Preamble} {start stop : Nat} {u : List Char}
    (h : u ∈ spanTexts p start stop) : u.length ≤ p.text.length := by
  obtain ⟨m, -, h⟩ := List.mem_flatMap.1 h
  exact length_le_of_mem_sliced h

/-- No text that bindings are read from is longer than the preamble. -/
theorem length_le_of_mem_preambleTexts {t u : List Char} (h : u ∈ preambleTexts t) :
    u.length ≤ t.length := by
  rcases List.mem_append.1 h with h | h
  · obtain ⟨m, -, h⟩ := List.mem_flatMap.1 h
    rw [declarationTexts] at h
    split at h
    · cases h
    · exact length_le_of_mem_sliced h
  · obtain ⟨m, -, h⟩ := List.mem_flatMap.1 h
    rw [conditionalTexts] at h
    split at h
    · cases h
    rcases List.mem_append.1 h with h | h
    · exact length_le_of_mem_spanTexts h
    · split at h
      · cases h
      · exact length_le_of_mem_spanTexts h

end Bindings

namespace Code

/-! ### Parentheses around a text -/

/-- As many steps as characters leave none. -/
theorem stripParens_finished {n : Nat} {t : List Char} (hn : t.length ≤ n) (ht : Trimmed t) :
    Trimmed (stripParens n t) ∧ isGroup '(' (stripParens n t) = false := by
  induction n generalizing t with
  | zero =>
    have hnil : t = [] := List.length_eq_zero_iff.1 (by omega)
    subst hnil
    exact ⟨ht, rfl⟩
  | succ n ih =>
    rw [stripParens]
    split
    · rename_i hg
      refine ih ?_ (trimmed_trim _)
      have hne : 0 < t.length := by
        rw [List.length_pos_iff]
        rintro rfl
        cases hg
      have hinner := length_trim_le (groupInner t)
      simp only [groupInner, List.length_dropLast, List.length_drop] at hinner
      simp only [groupInner]
      omega
    · rename_i hg
      exact ⟨ht, by simpa using hg⟩

theorem stripOuterParens_finished (t : List Char) :
    Trimmed (stripOuterParens t) ∧ stripOuterParens (stripOuterParens t) = stripOuterParens t := by
  have h := stripParens_finished (length_trim_le t) (trimmed_trim t)
  exact ⟨h.1, stripOuterParens_of_not_group h.1 h.2⟩

end Code

namespace Content

/-! ### Nested texts -/

/-- The content of `t` is read from the content of `u`. -/
def Nested (t u : List Char) : Prop := DependsOn (fun read => ofExpressionStep read t) u

theorem nested_iff {t u : List Char} : Nested t u ↔ u ∈ nestedTexts t :=
  (asks_ofExpressionStep t).dependsOn_iff

theorem Nested.length {t u : List Char} (h : Nested t u) :
    u.length ≤ t.length ∧ (u.length < t.length ∨ LoneOperand t) :=
  length_of_mem_nestedTexts (nested_iff.1 h)

theorem length_le_of_reflTransGen {t u : List Char} (h : Relation.ReflTransGen Nested t u) :
    u.length ≤ t.length := by
  induction h with
  | refl => exact Nat.le_refl _
  | tail _ hstep ih => exact Nat.le_trans hstep.length.1 ih

/-- However deep a text is nested, it is shorter than the one it is nested in. -/
theorem length_of_transGen {t u : List Char} (h : Relation.TransGen Nested t u) :
    u.length < t.length ∨ LoneOperand t := by
  obtain ⟨v, hstep, hrest⟩ := Relation.TransGen.head'_iff.1 h
  exact hstep.length.2.imp_left fun hlt => Nat.lt_of_le_of_lt (length_le_of_reflTransGen hrest) hlt

/-- No text below has a lone operand. -/
def Descends (t : List Char) : Prop := ∀ u, Relation.ReflTransGen Nested t u → ¬ LoneOperand u

theorem Descends.nested {t u : List Char} (h : Descends t) (hu : Nested t u) :
    Descends u ∧ u.length < t.length :=
  ⟨fun v hv => h v (.head hu hv), hu.length.2.resolve_right (h t .refl)⟩

theorem Descends.acc {t : List Char} (h : Descends t) : Acc (fun u v => Nested v u) t := by
  induction hn : t.length using Nat.strong_induction_on generalizing t with
  | _ n ih =>
    subst hn
    exact ⟨t, fun u hu => ih u.length (h.nested hu).2 (h.nested hu).1 rfl⟩

/-- Two bounds above the length give the same content. -/
theorem Descends.ofExpressionWithin_eq {t : List Char} (h : Descends t) {d d' : Nat}
    (hd : t.length < d) (hd' : t.length < d') : ofExpressionWithin d t = ofExpressionWithin d' t := by
  induction d generalizing t d' with
  | zero => exact absurd hd (Nat.not_lt_zero _)
  | succ d ih =>
    cases d' with
    | zero => exact absurd hd' (Nat.not_lt_zero _)
    | succ d' =>
      refine (asks_ofExpressionStep t).congr _ _ fun u hu => ?_
      obtain ⟨hdesc, hlt⟩ := h.nested (nested_iff.2 hu)
      exact ih hdesc (by omega) (by omega)

/-- The content solves the recursion: it is one step over the content of the nested texts. -/
theorem Descends.ofExpression_eq {t : List Char} (h : Descends t) :
    ofExpression t = ofExpressionStep ofExpression t := by
  refine (asks_ofExpressionStep t).congr _ _ fun u hu => ?_
  obtain ⟨hdesc, hlt⟩ := h.nested (nested_iff.2 hu)
  exact hdesc.ofExpressionWithin_eq hlt (Nat.lt_succ_self _)

/-- A lone operand without `??` is read from itself, so reading it does not end. -/
theorem LoneOperand.not_acc {t : List Char} (h : LoneOperand t)
    (hcoalesce : containsTopLevel (stripOuterParens t) "??".toList = false)
    (helement : wholeElement? (stripOuterParens t) = none) :
    ¬ Acc (fun u v => Nested v u) t := by
  obtain ⟨hparts, hc, hone⟩ := h
  obtain ⟨htrim, hstrip⟩ := stripOuterParens_finished t
  have hne : (stripOuterParens t).isEmpty = false := by
    cases hs : stripOuterParens t with
    | nil => rw [hs] at hone; cases hone
    | cons c r => rfl
  have hnothing : isNothing (stripOuterParens t) = false := by
    by_contra hn
    simp only [isNothing, List.any_cons, List.any_nil, Bool.or_false, Bool.or_eq_true,
      beq_iff_eq, Bool.not_eq_false] at hn
    rcases hn with hn | hn | hn | hn | hn <;>
      exact absurd (hn ▸ hc) (by decide)
  have hpieces : fallbackOperands (stripOuterParens t) = [stripOuterParens t] := by
    rw [fallbackOperands, hone, if_pos (by rfl), splitTopLevel_of_not_contains (by decide) hcoalesce,
      htrim.trim_eq]
    simp [hne]
  have hself : ∀ s, stripOuterParens s = stripOuterParens t → Nested s (stripOuterParens t) := by
    intro s hs
    rw [nested_iff, nestedTexts, hs, hne, if_neg Bool.false_ne_true, hparts, hc, Bool.true_or,
      if_pos rfl, hpieces]
    simp [operandTexts, hstrip, hnothing, helement]
  intro hacc
  have hloop : ¬ Acc (fun u v => Nested v u) (stripOuterParens t) := fun hacc => by
    generalize hx : stripOuterParens t = x at hacc
    induction hacc with
    | intro x _ ih => exact ih x (hx ▸ hself _ hstrip) hx
  exact hloop (hacc.inv (hself t rfl))

/-! ### The whole content -/

/-- Content of the children of an element and of the statements before it over any reader. -/
def ofRootBy (read : Reader) (root : Element) (preamble : List Char) : Reviewed (List Content) := do
  let elements ← ofNodes read root.children
  let bindings ← Bindings.ofPreambleBy read preamble
  pure (resolveAll bindings.get? elements)

theorem ofRootBy_ofExpression (root : Element) (preamble : List Char) :
    ofRootBy ofExpression root preamble = ofRoot root preamble := by
  rw [ofRootBy, ofRoot, Bindings.ofPreambleBy_ofExpression]

def rootTexts (root : Element) (preamble : List Char) : List (List Char) :=
  nodesTexts root.children ++ Bindings.preambleTexts preamble

theorem asks_ofRootBy (root : Element) (preamble : List Char) :
    Asks (fun read => ofRootBy read root preamble) (rootTexts root preamble) :=
  (asks_ofNodes root.children).bind fun _ => (Bindings.asks_ofPreambleBy preamble).map _

/-- A text met on the way to the content of an element and of the statements before it. -/
def Reached (root : Element) (preamble t : List Char) : Prop :=
  ∃ start, DependsOn (fun read => ofRootBy read root preamble) start ∧
    Relation.ReflTransGen Nested start t

/-- Only texts of a list are reached when it holds the first ones and what is nested in its own. -/
theorem Reached.mem {root : Element} {preamble t : List Char} {met : List (List Char)}
    (h : Reached root preamble t) (hstart : ∀ u ∈ rootTexts root preamble, u ∈ met)
    (hstep : ∀ u ∈ met, ∀ v ∈ nestedTexts u, v ∈ met) : t ∈ met := by
  obtain ⟨start, hdep, hrest⟩ := h
  induction hrest with
  | refl => exact hstart start ((asks_ofRootBy root preamble).dependsOn_iff.1 hdep)
  | tail _ hnested ih => exact hstep _ ih _ (nested_iff.1 hnested)

theorem Reached.descends {root : Element} {preamble t : List Char} (ht : Reached root preamble t)
    (h : ∀ u, Reached root preamble u → ¬ LoneOperand u) : Descends t := by
  obtain ⟨start, hdep, hrest⟩ := ht
  exact fun u hu => h u ⟨start, hdep, hrest.trans hu⟩

theorem length_le_of_mem_rootTexts {render preamble u : List Char} {root : Element}
    (hroot : firstElement? render = some root) (h : u ∈ rootTexts root preamble) :
    u.length ≤ render.length + preamble.length := by
  rcases List.mem_append.1 h with h | h
  · obtain ⟨start, -, hparsed⟩ := Option.bind_eq_some_iff.1 hroot
    have hlt := length_lt_of_mem_elementTexts hparsed (u := u) (by cases root; exact h)
    omega
  · have := Bindings.length_le_of_mem_preambleTexts h
    omega

/-- Content is read from shorter texts only, unless the expression has a lone operand. Where none of
the texts met has one, the reading ends, its result solves the recursion, and more depth than the texts
are long changes nothing. -/
theorem reads_shorter_texts_and_ends :
    (∀ t u : List Char, Relation.TransGen Nested t u → u.length < t.length ∨ LoneOperand t) ∧
      ∀ (render preamble : List Char) (root : Element), firstElement? render = some root →
        (∀ t, Reached root preamble t → ¬ LoneOperand t) →
          (∀ t, Reached root preamble t →
            Acc (fun u v => Nested v u) t ∧ ofExpression t = ofExpressionStep ofExpression t) ∧
          ∀ depth, render.length + preamble.length < depth →
            ofRootBy (ofExpressionWithin depth) root preamble = ofRoot root preamble := by
  refine ⟨fun t u => length_of_transGen, fun render preamble root hroot hlone => ⟨fun t ht => ?_, ?_⟩⟩
  · have hdesc := ht.descends hlone
    exact ⟨hdesc.acc, hdesc.ofExpression_eq⟩
  · intro depth hdepth
    rw [← ofRootBy_ofExpression]
    refine (asks_ofRootBy root preamble).congr _ _ fun u hu => ?_
    have hdesc : Descends u :=
      Reached.descends ⟨u, (asks_ofRootBy root preamble).dependsOn_iff.2 hu, .refl⟩ hlone
    have hlen := length_le_of_mem_rootTexts hroot hu
    exact hdesc.ofExpressionWithin_eq (by omega) (Nat.lt_succ_self _)

/-- A guarded list beside a name that a declaration binds. -/
theorem guarded_list_ends :
    let render := "<p>{a && (b.map(x => x) || c)}</p>".toList
    let preamble := "const c = <b>{d}</b>;".toList
    ∃ root, firstElement? render = some root ∧
      (∀ t, Reached root preamble t → ¬ LoneOperand t ∧ Acc (fun u v => Nested v u) t) ∧
      ofRootBy (ofExpressionWithin 100) root preamble = ofRoot root preamble ∧
      Relation.TransGen Nested "a && (b || c)".toList "c".toList ∧
      "c".toList.length < "a && (b || c)".toList.length := by
  intro render preamble
  let met := ["a && (b.map(x => x) || c)", "b.map(x => x) || c", "b.map(x => x)", "x", "c", "d"].map
    String.toList
  obtain ⟨root, hroot⟩ : ∃ root, firstElement? render = some root :=
    Option.isSome_iff_exists.1 (by decide)
  have hstart : ∀ root ∈ firstElement? render, ∀ u ∈ rootTexts root preamble, u ∈ met := by
    decide +kernel
  have hstep : ∀ u ∈ met, ¬ LoneOperand u ∧ ∀ v ∈ nestedTexts u, v ∈ met := by decide +kernel
  have hlone : ∀ t, Reached root preamble t → ¬ LoneOperand t := fun t ht =>
    (hstep t (ht.mem (hstart root hroot) fun u hu => (hstep u hu).2)).1
  have hends := reads_shorter_texts_and_ends.2 render preamble root hroot hlone
  have houter : Nested "a && (b || c)".toList "b || c".toList :=
    nested_iff.2 (by decide +kernel)
  have hinner : Nested "b || c".toList "c".toList := nested_iff.2 (by decide)
  have hnested := Relation.TransGen.head houter (.single hinner)
  exact ⟨root, hroot, fun t ht => ⟨hlone t ht, (hends.1 t ht).1⟩, hends.2 100 (by decide),
    hnested, (reads_shorter_texts_and_ends.1 _ _ hnested).resolve_right (by decide)⟩

end Content
end JsxToJinja
