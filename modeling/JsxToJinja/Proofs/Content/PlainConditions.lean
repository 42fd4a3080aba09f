import JsxToJinja.Proofs.Content.Angles
import JsxToJinja.Proofs.Content.EmbeddedText

/-! Conditions in the content of written code. They are plain expressions just where no element and no
iteration stands to the left of `||`, beside those to the left of `?` and of `&&`. -/
namespace JsxToJinja
open JsxToJinja.Text JsxToJinja.Code JsxToJinja.Markup

namespace Content

/-! ### Conditions in content -/

def conditionOf : Content → List String
  | .conditional c _ | .conditionalComponent c _ _ | .ternary c _ _ => [c]
  | .branches bs => bs.filterMap (·.condition)
  | _ => []

def parts : Content → List Content
  | .reference _ (some r) => [r]
  | .element _ cs | .component _ cs | .conditional _ cs | .conditionalComponent _ _ cs
  | .arrayMap _ cs => cs
  | .ternary _ a b => [a, b]
  | .branches bs => bs.flatMap (·.body)
  | _ => []

def conditions (cs : List Content) : List String := (walkAll cs).flatMap conditionOf

/-- No condition holds an element or a function. -/
def PlainlyGuarded (cs : List Content) : Prop := ∀ c ∈ conditions cs, isAngleFree c = true

theorem walkAll_append (a b : List Content) : walkAll (a ++ b) = walkAll a ++ walkAll b := by
  induction a with
  | nil => rfl
  | cons c a ih => rw [List.cons_append, walkAll, walkAll, ih, List.append_assoc]

theorem walkBranches_eq (bs : List Branch) : walkBranches bs = walkAll (bs.flatMap (·.body)) := by
  induction bs with
  | nil => rfl
  | cons b bs ih =>
    obtain ⟨c, body⟩ := b
    rw [walkBranches, walkBranch, ih, List.flatMap_cons, walkAll_append]
    rfl

theorem walk_eq (c : Content) : walk c = c :: walkAll c.parts := by
  cases c with
  | reference n r => cases r <;> simp [walk, parts, walkAll]
  | branches bs => rw [walk, walkBranches_eq, parts]
  | ternary c a b => simp [walk, parts, walkAll]
  | _ => rfl

@[simp] theorem plainlyGuarded_nil : PlainlyGuarded [] := fun _ h => absurd h List.not_mem_nil

@[simp] theorem plainlyGuarded_append {a b : List Content} :
    PlainlyGuarded (a ++ b) ↔ PlainlyGuarded a ∧ PlainlyGuarded b := by
  simp only [PlainlyGuarded, conditions, walkAll_append, List.flatMap_append, List.forall_mem_append]

theorem plainlyGuarded_singleton {c : Content} :
    PlainlyGuarded [c] ↔ (∀ x ∈ conditionOf c, isAngleFree x = true) ∧ PlainlyGuarded c.parts := by
  simp only [PlainlyGuarded, conditions, walkAll, walk_eq, List.append_nil, List.flatMap_cons,
    List.forall_mem_append]

theorem plainlyGuarded_cons {c : Content} {cs : List Content} :
    PlainlyGuarded (c :: cs) ↔ PlainlyGuarded [c] ∧ PlainlyGuarded cs := by
  rw [← List.singleton_append, plainlyGuarded_append]

/-! ### Content put together -/

theorem plainlyGuarded_ofText (t : List Char) : PlainlyGuarded (ofText t) := by
  rw [ofText]
  split <;> simp [plainlyGuarded_singleton, conditionOf, parts]

theorem plainlyGuarded_tagged {tag : OpeningTag} {cs : List Content} :
    PlainlyGuarded (tagged tag cs) ↔ PlainlyGuarded cs := by
  rw [tagged]
  split
  · rfl
  · split <;> simp [plainlyGuarded_singleton, conditionOf, parts]

theorem plainlyGuarded_guardedBy {c : String} {cs : List Content} :
    PlainlyGuarded [guardedBy c cs] ↔ isAngleFree c = true ∧ PlainlyGuarded cs := by
  unfold guardedBy
  split <;> simp [plainlyGuarded_singleton, conditionOf, parts]

/-- Two sides and their condition, which may be negated. -/
theorem plainlyGuarded_chosenBy {c : String} {yes no : List Content} :
    PlainlyGuarded [chosenBy c yes no] ↔
      isAngleFree c = true ∧ PlainlyGuarded yes ∧ PlainlyGuarded no := by
  have hnegated : isAngleFree ("!(" ++ c ++ ")") = true ↔ isAngleFree c = true := by
    rw [isAngleFree_iff, isAngleFree_iff, String.toList_append, String.toList_append,
      List.append_assoc, angles_neutral (by decide), angles, anglesFrom_append]
    simp [anglesFrom, angles, isAngle]
  unfold chosenBy
  split
  · rename_i hno
    simp [plainlyGuarded_singleton, conditionOf, parts, List.isEmpty_iff.1 hno]
  · split
    · rename_i hyes
      simp [plainlyGuarded_singleton, conditionOf, parts, List.isEmpty_iff.1 hyes, hnegated]
    · split
      · rename_i a b _ _
        rw [plainlyGuarded_singleton]
        simp [conditionOf, parts, @plainlyGuarded_cons a [b]]
      · simp [plainlyGuarded_singleton, conditionOf, parts, Branch.condition, Branch.body]

theorem plainlyGuarded_eitherOf {c : String} {yes no : List Content} :
    PlainlyGuarded [eitherOf c yes no] ↔
      isAngleFree c = true ∧ PlainlyGuarded yes ∧ PlainlyGuarded no := by
  rw [eitherOf]
  split
  · simp [plainlyGuarded_singleton, conditionOf, parts, Branch.condition, Branch.body]
  · exact plainlyGuarded_chosenBy

/-- Arms give the conditions of all operands but the last. -/
theorem plainlyGuarded_arms {left : List (List Char × List Content)} {last : List Char × List Content} :
    PlainlyGuarded [.branches (armsOf (left ++ [last]))] ↔
      (∀ a ∈ left, isAngleFree (code (stripOuterParens a.1)) = true) ∧
        (∀ a ∈ left, PlainlyGuarded a.2) ∧ PlainlyGuarded last.2 := by
  rw [plainlyGuarded_singleton]
  simp only [conditionOf, parts]
  induction left with
  | nil => simp [armsOf, Branch.condition, Branch.body]
  | cons a left ih =>
    have harms : armsOf (a :: left ++ [last]) =
        .mk (some (code (stripOuterParens a.1))) a.2 :: armsOf (left ++ [last]) := by
      cases left <;> rfl
    rw [harms]
    simp only [List.filterMap_cons, Branch.condition, List.flatMap_cons, Branch.body,
      plainlyGuarded_append, List.forall_mem_cons]
    constructor
    · rintro ⟨⟨hc, hcs⟩, ha, hbodies⟩
      obtain ⟨h₁, h₂, h₃⟩ := ih.1 ⟨hcs, hbodies⟩
      exact ⟨⟨hc, h₁⟩, ⟨ha, h₂⟩, h₃⟩
    · rintro ⟨⟨hc, h₁⟩, ⟨ha, h₂⟩, h₃⟩
      obtain ⟨hcs, hbodies⟩ := ih.2 ⟨h₁, h₂, h₃⟩
      exact ⟨⟨hc, hcs⟩, ha, hbodies⟩

/-! ### Content that is rewritten -/

theorem conditionOf_mapCode (f : String → String) (c : Content) :
    conditionOf (mapCode f c) = (conditionOf c).map f := by
  cases c with
  | reference n r => cases r <;> rfl
  | branches bs =>
    simp only [mapCode, conditionOf]
    induction bs with
    | nil => rfl
    | cons b bs ih =>
      obtain ⟨c, body⟩ := b
      have hown (c : Option String) (body : List Content) : (Branch.mk c body).condition = c := rfl
      cases c <;> simp [mapCodeBranches, mapCodeBranch, hown, ih]
  | _ => rfl

mutual

theorem walk_mapCode (f : String → String) : (c : Content) → walk (mapCode f c) = (walk c).map (mapCode f)
  | .reference n none => rfl
  | .reference n (some r) => by simp [mapCode, walk, walk_mapCode f r]
  | .element u cs | .component u cs | .conditional c cs | .conditionalComponent c u cs
  | .arrayMap l cs => by simp [mapCode, walk, walkAll_mapCodeAll f cs]
  | .ternary c a b => by simp [mapCode, walk, walk_mapCode f a, walk_mapCode f b]
  | .branches bs => by simp [mapCode, walk, walkBranches_mapCode f bs]
  | .literal _ | .fallback _ | .call _ _ | .unsupported _ => rfl

theorem walkAll_mapCodeAll (f : String → String) :
    (cs : List Content) → walkAll (mapCodeAll f cs) = (walkAll cs).map (mapCode f)
  | [] => rfl
  | c :: cs => by simp [mapCodeAll, walkAll, walk_mapCode f c, walkAll_mapCodeAll f cs]

theorem walkBranches_mapCode (f : String → String) :
    (bs : List Branch) → walkBranches (mapCodeBranches f bs) = (walkBranches bs).map (mapCode f)
  | [] => rfl
  | .mk c body :: bs => by
    simp [mapCodeBranches, mapCodeBranch, walkBranches, walkBranch, walkAll_mapCodeAll f body,
      walkBranches_mapCode f bs]

end

theorem conditions_mapCodeAll (f : String → String) (cs : List Content) :
    conditions (mapCodeAll f cs) = (conditions cs).map f := by
  simp only [conditions, walkAll_mapCodeAll, List.flatMap_map, List.map_flatMap, conditionOf_mapCode]

/-- Fields put behind the item leave conditions plain. -/
theorem plainlyGuarded_qualified {names : List String} {item : String}
    (hitem : ∀ c ∈ item.toList, isNeutral c = true) {cs : List Content} :
    PlainlyGuarded (mapCodeAll (qualify names item) cs) ↔ PlainlyGuarded cs := by
  simp only [PlainlyGuarded, conditions_mapCodeAll, List.forall_mem_map, isAngleFree_iff,
    Qualified.angles_qualify hitem]

/-- A callback that takes fields out of the item has an item of its own name. -/
theorem itemVar_of_binders? {params : List Char} {itemVar : String} {destructured : List String}
    {indexVar : Option String} (h : binders? params = some (itemVar, destructured, indexVar)) :
    destructured = [] ∨ itemVar = "item" := by
  obtain ⟨first, -, h⟩ := Option.bind_eq_some_iff.1 h
  obtain ⟨b, hb, h⟩ := Option.bind_eq_some_iff.1 h
  cases h
  rw [pattern?] at hb
  split at hb
  · obtain ⟨inner, -, hb⟩ := Option.bind_eq_some_iff.1 hb
    cases hb
    exact .inr rfl
  · cases hb
    exact .inl rfl

/-- An iteration has no condition of its own, and its body counts only if the callback can
be read. -/
theorem plainlyGuarded_iteration {l : LoopText} {tag : Option OpeningTag} {body : List Content} :
    PlainlyGuarded [iteration l tag body] ↔
      ((binders? l.params).isSome = true → PlainlyGuarded body) := by
  rw [iteration]
  split
  · rename_i hnone
    simp [hnone, plainlyGuarded_singleton, conditionOf, parts]
  · rename_i itemVar destructured indexVar hsome
    have hloop (l : Loop) (cs : List Content) : PlainlyGuarded [.arrayMap l cs] ↔ PlainlyGuarded cs := by
      simp [plainlyGuarded_singleton, conditionOf, parts]
    have hhead : ∀ l : Loop, l.destructured = destructured → l.itemVar = itemVar →
        (PlainlyGuarded [overItems l body] ↔ PlainlyGuarded body) := by
      intro l hnames hitem
      rw [overItems, hnames]
      split
      · exact hloop _ _
      · rename_i hne
        have hvar : itemVar = "item" := (itemVar_of_binders? hsome).resolve_left (by simpa using hne)
        rw [hloop, hitem, hvar, plainlyGuarded_qualified (by decide)]
    rw [hsome]
    simp only [Option.isSome_some, forall_const]
    cases tag with
    | none => exact hhead _ rfl rfl
    | some tag => exact hhead _ rfl rfl

/-! ### Code with markup in it -/

namespace Written

def rich : {f : Form} → Written f → Bool
  | _, path _ | _, quoted _ _ | _, braces _ _ | _, last _ | _, next _ _ _ => false
  | _, closed _ | _, paired _ _ | _, nested _ | _, embedded _ | _, loop _ _ _ _ _ => true
  | _, paren _ e | _, first e => e.rich
  | _, cond c _ a _ b => c.rich || a.rich || b.rich
  | _, join left _ e | _, more left _ e => left.rich || e.rich

/-- No element and no iteration stands to the left of `?` or `&&`. -/
def Guarded : {f : Form} → Written f → Prop
  | _, closed _ | _, last _ | _, path _ | _, quoted _ _ => True
  | _, paired _ inner => inner.Guarded
  | _, nested e | _, embedded e => e.Guarded
  | _, braces _ e | _, paren _ e | _, first e | _, loop _ _ _ _ e => e.Guarded
  | _, next _ child rest => child.Guarded ∧ rest.Guarded
  | _, cond c _ a _ b => c.rich = false ∧ a.Guarded ∧ b.Guarded
  | _, join (j := .conj) left _ e => left.rich = false ∧ e.Guarded
  | _, join (j := .disj) left _ e | _, more left _ e => left.Guarded ∧ e.Guarded

/-- An element or an iteration stands to the left of `||`, in what is looked into: an element alone between
braces is not, and neither is an iteration whose parameters cannot be read. -/
def promotes : {f : Form} → Written f → Bool
  | _, closed _ | _, last _ | _, path _ | _, quoted _ _ => false
  | _, paired _ inner => inner.promotes
  | _, nested e | _, embedded e => e.promotes
  | _, braces _ e => e.element?.isNone && e.promotes
  | _, paren _ e | _, first e => e.promotes
  | _, loop _ _ params _ body => (binders? params).isSome && body.promotes
  | _, next _ child rest => child.promotes || rest.promotes
  | _, cond _ _ a _ b => a.promotes || b.promotes
  | _, join (j := .conj) _ _ e => e.promotes
  | _, join (j := .disj) left _ e => left.rich || e.promotes
  | _, more left _ e => left.promotes || e.promotes

attribute [local simp] rich

variable {f : Form} {inside : Bool}

/-- In code there are angle brackets just where an element or an iteration stands in the
expression. -/
theorem Fits.angles_text {e : Written f} (h : e.Fits true) (hf : ∀ part, f ≠ .markup part) :
    angles e.text = [] ↔ e.rich = false := by
  induction e with
  | path t => simp [text, angles_of_isNeutral (isNeutral_of_isPath h)]
  | quoted v t =>
    obtain ⟨hq, hspelled⟩ : Quoted v t := h
    simp [text, angles_literal (by rcases hq with rfl | rfl <;> decide) hspelled.literalBody]
  | embedded e =>
    obtain ⟨r, hr⟩ := List.head?_eq_some_iff.1 e.head?_text
    simp [text, hr, angles, anglesFrom, isAngle]
  | loop array sign params around body =>
    -- The arrow behind the parameters.
    have harrow (t : List Char) : angles ('=' :: '>' :: t) ≠ [] := by
      simp [angles, anglesFrom, Mode.next, isAngle, isQuote]
    obtain ⟨harray, hsign, hparams, -⟩ := h
    have hfront : ∀ c ∈ array ++ (sign ++ ".map(".toList), isNeutral c = true := by
      have hmap : ∀ c ∈ ".map(".toList, isNeutral c = true := by decide
      refine List.forall_mem_append.2 ⟨isNeutral_of_isPath harray, List.forall_mem_append.2 ⟨?_, hmap⟩⟩
      rcases hsign with hblank | rfl
      · exact isNeutral_of_blank hblank
      · decide
    have htext : (loop array sign params around body).text = (array ++ (sign ++ ".map(".toList)) ++
        (params ++ ('=' :: '>' :: (padded around body.text ++ [')']))) := by
      simp [text, LoopText.text, LoopText.front, LoopText.callback]
    rw [htext, angles_neutral hfront, angles_append hparams, List.append_eq_nil_iff]
    simp [harrow]
  | paren around e ih =>
    have hopen : ∀ c ∈ '(' :: around.before.chars, isNeutral c = true :=
      List.forall_mem_cons.2 ⟨by decide, isNeutral_of_blank around.before.blank⟩
    have hclose : ∀ c ∈ around.after.chars ++ [')'], isNeutral c = true :=
      List.forall_mem_append.2 ⟨isNeutral_of_blank around.after.blank, by decide⟩
    have he : e.Fits true := h
    rw [text, ← List.cons_append, angles_neutral hopen, angles_append he.nests,
      angles_of_isNeutral hclose, List.append_nil]
    exact ih he (by simp)
  | cond c question a colon b ihc iha ihb =>
    have hgap (g g' : Gap) {s : Char} (hs : isNeutral s = true) :
        ∀ c ∈ g.chars ++ s :: g'.chars, isNeutral c = true :=
      List.forall_mem_append.2 ⟨isNeutral_of_blank g.blank,
        List.forall_mem_cons.2 ⟨hs, isNeutral_of_blank g'.blank⟩⟩
    have htext : (cond c question a colon b).text = c.text ++
        ((question.before.chars ++ '?' :: question.after.chars) ++ (a.text ++
          ((colon.before.chars ++ ':' :: colon.after.chars) ++ b.text))) := by simp [text]
    rw [htext, angles_between h.2.1.nests (hgap _ _ (by decide)),
      angles_between h.2.2.1.nests (hgap _ _ (by decide)), ihc h.2.1 (by simp), iha h.2.2.1 (by simp),
      ihb h.2.2.2 (by simp)]
    simp [and_assoc]
  | @join j left around e ihl ihe | @more j left around e ihl ihe =>
    have hmid : ∀ c ∈ around.before.chars ++ (j.symbol ++ around.after.chars), isNeutral c = true :=
      List.forall_mem_append.2 ⟨isNeutral_of_blank around.before.blank,
        List.forall_mem_append.2 ⟨by cases j <;> decide, isNeutral_of_blank around.after.blank⟩⟩
    have htext : left.text ++ (around.before.chars ++ (j.symbol ++ (around.after.chars ++ e.text))) =
        left.text ++ ((around.before.chars ++ (j.symbol ++ around.after.chars)) ++ e.text) := by simp
    rw [text, htext, angles_between h.1.nests hmid, ihl h.1 (by simp), ihe h.2.2 (by simp)]
    simp
  | first e ih => exact ih h.2 (by simp)
  | _ => exact absurd rfl (hf _)

theorem rich_core (e : Written f) : e.core.rich = e.rich := by
  induction e with
  | paren around e ih => exact ih
  | _ => rfl

/-- Code is free of angle brackets just where nothing rich stands in it, also without its parentheses. -/
theorem Fits.isAngleFree_code {e : Written .code} (h : e.Fits true) (hp : ¬ escapedProps <:+: e.text) :
    (isAngleFree (code e.text) = true ↔ e.rich = false) ∧
      (isAngleFree (code (stripOuterParens e.text)) = true ↔ e.rich = false) := by
  have hcode {e : Written .code} (h : e.Fits true) (hp : ¬ escapedProps <:+: e.text) :
      isAngleFree (code e.text) = true ↔ e.rich = false := by
    rw [isAngleFree_iff, code, String.toList_ofList, angles_stripProps hp, h.angles_text (by simp)]
  obtain ⟨hstrip, hcore, -, hin⟩ := h.strip rfl
  refine ⟨hcode h hp, ?_⟩
  rw [hstrip, hcode hcore fun hi => hp (hi.trans hin), rich_core]

/-- An operand that is rich is neither a path nor a string. -/
theorem Fits.rich_of_simple {e : Written .code} (h : e.Fits true)
    (hs : (isMemberPath e.text || (stringLiteral? e.text).isSome) = true) : e.rich = false := by
  rw [← h.angles_text (by simp)]
  have htrim : trim e.text = e.text := (h.edged (by simp)).trimmed.trim_eq
  rcases Bool.or_eq_true_iff.1 hs with hpath | hstring
  · refine angles_of_isNeutral fun c hc => ?_
    rcases char_of_isMemberPath hpath (htrim.symm ▸ hc) with hname | rfl | rfl
    · exact isNeutral_of_isIdentifierChar hname
    · decide
    · decide
  · obtain ⟨v, hv⟩ := Option.isSome_iff_exists.1 hstring
    obtain ⟨q, body, hq, hb, htext⟩ := literal_of_stringLiteral? hv
    rw [← htrim, htext, angles_literal hq hb]

/-- Only what holds an element or an iteration is promoted to branches. -/
theorem rich_of_promotes {e : Written f} (hf : ∀ part, f ≠ .markup part) (h : e.promotes = true) :
    e.rich = true := by
  induction e with
  | embedded | loop => rfl
  | path | quoted => cases h
  | paren around e ih | first e ih => exact ih (by simp) h
  | cond c question a colon b ihc iha ihb =>
    rcases Bool.or_eq_true_iff.1 h with h | h
    · simp [iha (by simp) h]
    · simp [ihb (by simp) h]
  | @join j left around e ihl ihe =>
    cases j with
    | conj => simp [ihe (by simp) h]
    | disj =>
      rcases Bool.or_eq_true_iff.1 h with h | h
      · simp [h]
      · simp [ihe (by simp) h]
  | more left around e ihl ihe =>
    rcases Bool.or_eq_true_iff.1 h with h | h
    · simp [ihl (by simp) h]
    · simp [ihe (by simp) h]
  | _ => exact absurd rfl (hf _)

/-! ### Conditions of written code -/

/-- The conditions in the content are plain just where nothing is promoted. -/
def Judged : {f : Form} → Written f → Prop
  | .markup _, m => PlainlyGuarded m.content ↔ m.promotes = false
  | .code, e => (PlainlyGuarded (e.content false) ↔ e.promotes = false) ∧
      (PlainlyGuarded (e.content true) ↔ (e.element?.isNone && e.promotes) = false)
  | .chain _, left => (∀ a ∈ left.content, PlainlyGuarded a.2) ↔ left.promotes = false

theorem plainlyGuarded_unlessNothing {alone : Bool} {t : List Char} {c : Content}
    (hc : conditions [c] = []) : PlainlyGuarded (unlessNothing alone t [c]) := by
  rw [unlessNothing]
  split
  · exact plainlyGuarded_nil
  · rw [PlainlyGuarded, hc]
    exact fun _ h => absurd h List.not_mem_nil

/-- Operands to the left of `||` give plain conditions just where none of them is rich. -/
theorem Fits.operands_isAngleFree {j : Junction} {left : Written (.chain j)} (h : left.Fits true)
    (hp : ¬ escapedProps <:+: left.text) :
    (∀ a ∈ left.content, isAngleFree (code (stripOuterParens a.1)) = true) ↔ left.rich = false := by
  induction left using chain_induction with
  | first e => simpa [content] using (h.2.isAngleFree_code hp).2
  | more left around e ih =>
    have hleft := ih h.1 fun hi => hp (hi.trans ⟨[], _, rfl⟩)
    have hlast := (h.2.2.isAngleFree_code fun hi => hp (hi.trans ⟨left.text ++
      (around.before.chars ++ (j.symbol ++ around.after.chars)), [], by simp [text]⟩)).2
    rw [content, List.forall_mem_append, hleft]
    simpa using fun _ => hlast

theorem infix_of_mem_operands {j : Junction} {left : Written (.chain j)} {t : List Char}
    (h : t ∈ left.operands) : t <:+: left.text := by
  induction left using chain_induction with
  | first e => exact List.mem_singleton.1 h ▸ List.infix_rfl
  | more left around e ih =>
    rcases List.mem_append.1 h with h | h
    · exact (ih h).trans ⟨[], _, rfl⟩
    · rw [List.mem_singleton.1 h]
      exact ⟨left.text ++ (around.before.chars ++ (j.symbol ++ around.after.chars)), [], by simp [text]⟩

theorem Fits.angles_of_mem_operands {j : Junction} {left : Written (.chain j)} (h : left.Fits true)
    (hr : left.rich = false) {t : List Char} (ht : t ∈ left.operands) : Sealed [] t ∧ angles t = [] := by
  induction left using chain_induction with
  | first e =>
    rw [List.mem_singleton.1 ht]
    exact ⟨h.2.nests, (h.2.angles_text (by simp)).2 hr⟩
  | more left around e ih =>
    obtain ⟨hleft, hlast⟩ := Bool.or_eq_false_iff.1 hr
    rcases List.mem_append.1 ht with ht | ht
    · exact ih h.1 hleft ht
    · rw [List.mem_singleton.1 ht]
      exact ⟨h.2.2.nests, (h.2.2.angles_text (by simp)).2 hlast⟩

/-- Operands joined again by `&&` are plain where none of them is rich. -/
theorem Fits.rejoined_isAngleFree {j : Junction} {left : Written (.chain j)} (h : left.Fits true)
    (hp : ¬ escapedProps <:+: left.text) (hr : left.rich = false) :
    isAngleFree (code (" && ".toList.intercalate (left.content.map (·.1)))) = true := by
  have hescaped : ¬ escapedProps <:+: " && ".toList.intercalate left.operands :=
    not_infix_rejoined (by decide) (by decide) fun t ht hi => hp (hi.trans (infix_of_mem_operands ht))
  have hparts : ∀ t ∈ left.operands, Sealed [] t ∧ angles t = [] := fun t ht =>
    h.angles_of_mem_operands hr ht
  rw [operands_eq, isAngleFree_iff, code, String.toList_ofList, angles_stripProps hescaped]
  clear hescaped
  generalize left.operands = ts at hparts
  induction ts with
  | nil => rfl
  | cons t ts ih =>
    obtain ⟨ht, hts⟩ := List.forall_mem_cons.1 hparts
    cases ts with
    | nil => rw [List.intercalate_singleton, ht.2]
    | cons u ts =>
      rw [List.intercalate_cons_cons, List.append_assoc, angles_between ht.1 (by decide)]
      exact ⟨ht.2, ih hts⟩

theorem Fits.rich_of_all_simple {j : Junction} {left : Written (.chain j)} (h : left.Fits true)
    (hs : left.content.all (fun a => isMemberPath a.1 || (stringLiteral? a.1).isSome) = true) :
    left.rich = false := by
  induction left using chain_induction with
  | first e => exact h.2.rich_of_simple (by simpa [content] using hs)
  | more left around e ih =>
    rw [content, List.all_append, Bool.and_eq_true] at hs
    rw [rich, ih h.1 hs.1, h.2.2.rich_of_simple (by simpa using hs.2)]
    rfl

/-- `||` takes an operand that is rich for a condition. -/
theorem Fits.judged_disj {left : Written (.chain .disj)} {e : Written .code} (h : left.Fits true)
    (he : e.Fits true) (hp : ¬ escapedProps <:+: left.text) (hleft : Judged left) (hlast : Judged e) :
    PlainlyGuarded [firstOf (left.content ++ [(e.text, e.content false)])] ↔
      (left.rich || e.promotes) = false := by
  have hpromotes {f : Form} {e : Written f} (hf : ∀ part, f ≠ .markup part) (hr : e.rich = false) :
      e.promotes = false := by
    rw [← Bool.not_eq_true] at hr ⊢
    exact fun hp => hr (rich_of_promotes hf hp)
  rw [firstOf]
  split
  · rename_i hsimple
    rw [Bool.and_eq_true, List.all_append, Bool.and_eq_true] at hsimple
    have hfirst : left.rich = false := h.rich_of_all_simple hsimple.1.1
    have hsecond : e.rich = false := he.rich_of_simple (by simpa using hsimple.1.2)
    simp [plainlyGuarded_singleton, conditionOf, parts, hfirst, hpromotes (by simp) hsecond]
  · have hbodies : (∀ a ∈ left.content, PlainlyGuarded a.2) ↔ left.promotes = false := hleft
    rw [plainlyGuarded_arms, h.operands_isAngleFree hp, hbodies, hlast.1, Bool.or_eq_false_iff]
    exact ⟨fun hall => ⟨hall.1, hall.2.2⟩, fun hall => ⟨hall.1, hpromotes (by simp) hall.1, hall.2⟩⟩

/-- The conditions of an expression are plain just when nothing in it is promoted. -/
theorem Fits.judged {e : Written f} (h : e.Fits inside) (hg : e.Guarded)
    (hp : ¬ escapedProps <:+: e.text) : Judged e := by
  induction e generalizing inside with
  | closed tag => simp [Judged, content, plainlyGuarded_tagged, promotes]
  | paired tag inner ih =>
    have hinner : Judged inner := ih h hg fun hi => hp (hi.trans
      ⟨tag.text, closingTag tag.opening.name [], by simp [text]⟩)
    simpa [Judged, content, plainlyGuarded_tagged, promotes] using hinner
  | nested e ih => exact ih h hg hp
  | braces around e ih =>
    have he : Judged e := ih h hg fun hi => hp (hi.trans ⟨'\x7b' :: around.before.chars,
      around.after.chars ++ ['\x7d'], by simp [text, padded]⟩)
    exact he.2
  | last t => simp [Judged, content, plainlyGuarded_ofText, promotes]
  | next t child rest ihc ihr =>
    have hchild : Judged child := ihc h.2.1 hg.1 fun hi => hp (hi.trans ⟨t, rest.text, by simp [text]⟩)
    have hrest : Judged rest := ihr h.2.2 hg.2 fun hi => hp (hi.trans ⟨t ++ child.text, [], by simp [text]⟩)
    rw [Judged] at hchild hrest ⊢
    simp [content, plainlyGuarded_ofText, promotes, hchild, hrest]
  | path t =>
    have hplain (alone : Bool) : PlainlyGuarded ((path t).content alone) :=
      plainlyGuarded_unlessNothing rfl
    simp [Judged, hplain, promotes]
  | quoted v t =>
    have hplain (alone : Bool) : PlainlyGuarded ((quoted v t).content alone) :=
      plainlyGuarded_unlessNothing rfl
    simp [Judged, hplain, promotes]
  | embedded m ih =>
    have hm : Judged m := ih h hg hp
    refine ⟨hm, ?_⟩
    simp [content, element?, plainlyGuarded_singleton, conditionOf, parts]
  | loop array sign params around body ih =>
    have hbody : Judged body := ih h.2.2.2 hg fun hi => hp (hi.trans
      ⟨array ++ (sign ++ (".map(".toList ++ (params ++ ("=>".toList ++ around.before.chars)))),
        around.after.chars ++ [')'],
        by simp [text, LoopText.text, LoopText.front, LoopText.callback, padded]⟩)
    have hshown : PlainlyGuarded (body.content body.element?.isNone) ↔ body.promotes = false := by
      cases helement : body.element? with
      | some m => exact hbody.1
      | none => simpa [helement] using hbody.2
    have hloop : PlainlyGuarded ((loop array sign params around body).content true) ↔
        ((binders? params).isSome && body.promotes) = false := by
      rw [content, plainlyGuarded_iteration, hshown]
      cases (binders? params).isSome <;> simp
    exact ⟨hloop, hloop⟩
  | paren around e ih =>
    have he : Judged e := ih h hg fun hi => hp (hi.trans ⟨'(' :: around.before.chars,
      around.after.chars ++ [')'], by simp [text]⟩)
    exact he
  | cond c question a colon b ihc iha ihb =>
    have ha : Judged a := iha h.2.2.1 hg.2.1 fun hi => hp (hi.trans
      ⟨c.text ++ (question.before.chars ++ '?' :: question.after.chars),
        colon.before.chars ++ ':' :: (colon.after.chars ++ b.text), by simp [text]⟩)
    have hb : Judged b := ihb h.2.2.2 hg.2.2 fun hi => hp (hi.trans
      ⟨c.text ++ (question.before.chars ++ '?' :: (question.after.chars ++ (a.text ++
        (colon.before.chars ++ ':' :: colon.after.chars)))), [], by simp [text]⟩)
    have hc : isAngleFree (code c.text) = true :=
      (h.2.1.isAngleFree_code fun hi => hp (hi.trans ⟨[], _, rfl⟩)).1.2 hg.1
    have hsides : PlainlyGuarded [eitherOf (code c.text) (a.content false) (b.content false)] ↔
        (a.promotes || b.promotes) = false := by
      simp [plainlyGuarded_eitherOf, hc, ha.1, hb.1]
    exact ⟨hsides, hsides⟩
  | @join j left around e ihl ihe =>
    have hleft : ¬ escapedProps <:+: left.text := fun hi => hp (hi.trans ⟨[], _, rfl⟩)
    have hlast : ¬ escapedProps <:+: e.text := fun hi => hp (hi.trans
      ⟨left.text ++ (around.before.chars ++ (j.symbol ++ around.after.chars)), [], by simp [text]⟩)
    cases j with
    | conj =>
      have he : Judged e := ihe h.2.2 hg.2 hlast
      have hguard : PlainlyGuarded [joinedBy .conj left.content (e.text, e.content false)] ↔
          e.promotes = false := by
        have hcondition := h.1.rejoined_isAngleFree hleft hg.1
        rw [joinedBy, plainlyGuarded_guardedBy, he.1]
        exact and_iff_right hcondition
      exact ⟨hguard, hguard⟩
    | disj =>
      have hchain := h.1.judged_disj h.2.2 hleft (ihl h.1 hg.1 hleft) (ihe h.2.2 hg.2 hlast)
      exact ⟨hchain, hchain⟩
  | first e ih =>
    have he : Judged e := ih h.2 hg hp
    simpa [Judged, content, promotes] using he.1
  | @more j left around e ihl ihe =>
    have hleft : Judged left := ihl h.1 hg.1 fun hi => hp (hi.trans ⟨[], _, rfl⟩)
    have he : Judged e := ihe h.2.2 hg.2 fun hi => hp (hi.trans
      ⟨left.text ++ (around.before.chars ++ (j.symbol ++ around.after.chars)), [], by simp [text]⟩)
    rw [Judged] at hleft ⊢
    rw [content, List.forall_mem_append, hleft]
    simp [promotes, he.1]

/-- Where no element and no iteration stands to the left of `?` or `&&`, every condition in the content of
the markup is plain just where none stands to the left of `||`. -/
theorem conditions_plain_iff_nothing_promoted (root : Written (.markup .element)) (h : root.Fits false)
    (hg : root.Guarded) (hp : ¬ escapedProps <:+: root.text) :
    ∃ e, firstElement? root.text = some e ∧
      ((∀ c ∈ conditions (ofRoot e []).value, isAngleFree c = true) ↔ root.promotes = false) := by
  obtain ⟨e, hparse, hvalue⟩ := h.frame.ofRoot
  rw [print_frame] at hparse
  refine ⟨e, hparse, ?_⟩
  rw [hvalue]
  cases root with
  | closed tag => simp [Frame.inner, Written.frame, conditions, walkAll, promotes]
  | paired tag inner =>
    have hinner : inner.Fits false := h
    have hread : inner.frame.content (fun c => (ofExpression c).value) = inner.content :=
      hinner.value_frame fun e he _ => he.value_ofExpression
    have hjudged : Judged inner := hinner.judged hg fun hi => hp (hi.trans
      ⟨tag.text, closingTag tag.opening.name [], by simp [text]⟩)
    rw [Written.frame, Frame.inner, hread]
    exact hjudged

/-- `<ul>{children || (items && items.map((item) => <li>{item.label}</li>))}</ul>`. -/
def childrenOrList : Written (.markup .element) :=
  let item := paired Tree.liTag
    (next [] (braces ⟨.none, .none⟩ (path "item.label".toList)) (last []))
  let list := loop "items".toList [] "(item) ".toList ⟨.space, .none⟩ (embedded item)
  paired Tree.ulTag
    (next [] (braces ⟨.none, .none⟩ (join (j := .disj) (first (path "children".toList)) ⟨.space, .space⟩
      (paren ⟨.none, .none⟩ (join (j := .conj) (first (path "items".toList)) ⟨.space, .space⟩ list))))
      (last []))

theorem childrenOrList_fits : childrenOrList.Fits false := by
  have hempty (inside : Bool) : InertText inside [] := ⟨by simp, fun _ => .nil⟩
  have hchildren : IsPath "children".toList := .name (by decide)
  have hitems : IsPath "items".toList := .name (by decide)
  have hlabel : IsPath ("item".toList ++ '.' :: "label".toList) := .dot (by decide) (.name (by decide))
  have hparams : Sealed ['='] ('(' :: ("item".toList ++ ')' :: [' '])) :=
    .group (by decide) (sealed_of_ordinary (by decide)) (sealed_of_ordinary (by decide))
  exact ⟨hempty _, ⟨⟨by decide, hchildren⟩, by decide, ⟨by decide, hitems⟩, by decide, hitems,
    .inl blank_nil, hparams, hempty _, hlabel, hempty _⟩, hempty _⟩

/-- A list behind an alternative is no condition. -/
theorem list_behind_children_is_plain :
    let list := "items.map((item) => <li>\x7bitem.label\x7d</li>)"
    let render := "<ul>\x7bchildren || (items && " ++ list ++ ")\x7d</ul>"
    childrenOrList.text = render.toList ∧ childrenOrList.Guarded ∧ childrenOrList.promotes = false ∧
      ∃ e, firstElement? render.toList = some e ∧
        ∀ c ∈ conditions (ofRoot e []).value, isAngleFree c = true := by
  intro list render
  have htext : childrenOrList.text = render.toList := by decide
  have hguarded : childrenOrList.Guarded := ⟨⟨trivial, rfl, trivial, trivial⟩, trivial⟩
  have hpromotes : childrenOrList.promotes = false := by decide
  have hescaped : ¬ escapedProps <:+: childrenOrList.text := by
    rw [htext]
    decide +kernel
  obtain ⟨e, he, hplain⟩ := conditions_plain_iff_nothing_promoted childrenOrList childrenOrList_fits
    hguarded hescaped
  exact ⟨htext, hguarded, hpromotes, e, htext ▸ he, hplain.2 hpromotes⟩

theorem isTag_mark : IsTag true ⟨String.ofList ['A'], [], [], true⟩
    ('<' :: (['A'] ++ ([' '] ++ tagEnd true))) :=
  .named ⟨by decide, by decide⟩ (by decide) (.done blank_space)

/-- `<p>{<A /> || label}</p>`. -/
def elementOrLabel : Written (.markup .element) :=
  paired Tree.pTag
    (next [] (braces ⟨.none, .none⟩ (join (j := .disj) (first (embedded (closed ⟨_, _, isTag_mark⟩)))
      ⟨.space, .space⟩ (path "label".toList))) (last []))

/-- An element in front of `||` becomes a condition. -/
theorem element_becomes_condition :
    let render := "<p>\x7b<A /> || label\x7d</p>".toList
    elementOrLabel.text = render ∧ elementOrLabel.Fits false ∧ elementOrLabel.Guarded ∧
      ∃ e, firstElement? render = some e ∧ conditions (ofRoot e []).value = ["<A />"] ∧
        isAngleFree "<A />" = false := by
  intro render
  have hempty : InertText false [] := ⟨by simp, by simp⟩
  have hlabel : IsPath "label".toList := .name (by decide)
  have hread : ∀ e ∈ firstElement? render, conditions (ofRoot e []).value = ["<A />"] := by
    decide +kernel
  obtain ⟨e, he⟩ : ∃ e, firstElement? render = some e := Option.isSome_iff_exists.1 (by decide)
  exact ⟨by decide, ⟨hempty, ⟨⟨by decide, trivial⟩, by decide, hlabel⟩, hempty⟩,
    ⟨⟨trivial, trivial⟩, trivial⟩, e, he, hread e he, by decide⟩

end Written

end Content

end JsxToJinja
