import JsxToJinja.Classes.Forwarded
import JsxToJinja.Proofs.Classes.ExtractedClasses

/-! Values that the root hands to properties of the base component: an attribute, or one of two
literals. Where nothing is left for review, the classes found are those of the base component for the
value, whatever the attributes hold. -/
namespace JsxToJinja
open JsxToJinja.Text JsxToJinja.Code JsxToJinja.Markup

/-- Values that an attribute takes: the texts listed for it, or else a truth value. -/
inductive Attribute.Takes (a : Attribute) : Json → Prop where
  | value {v : String} : a.hasType .number = false → v ∈ a.enumValues → a.Takes (.str v)
  | flag (b : Bool) : a.enumValues = [] → a.isBoolean = true → a.Takes (.bool b)

def Code.Expression.names : Expression → List String
  | path x => [x]
  | compare _ x _ => [x]
  | not e => e.names
  | join _ a b => a.names ++ b.names
  | _ => []

namespace Forwarded
open ClassExpression (Tests tidy_of_base)

/-! ### Values and their texts -/

/-- What is handed on: the value of an attribute, or one of two literals, of which the second may be
absent. -/
inductive Handed where
  | forward (name : String)
  | choice (condition : Expression) (yes : Json) (no : Option Json)

namespace Handed

def value? (env : String → Json) : Handed → Option Json
  | forward x => some (env x)
  | choice c yes no => if c.truth env then some yes else no

def names : Handed → List String
  | forward x => [x]
  | choice c _ _ => c.names

end Handed

/-- A text in quotes or a truth value. -/
inductive IsLiteral : Json → List Char → Prop where
  | str {v : String} {t : List Char} : Quoted v.toList t → IsLiteral (.str v) t
  | yes : IsLiteral (.bool true) "true".toList
  | no : IsLiteral (.bool false) "false".toList

/-- What stands behind the colon. -/
inductive IsAlternate : Option Json → List Char → Prop where
  | literal {v : Json} {t : List Char} : IsLiteral v t → IsAlternate (some v) t
  | absent {w : String} : w ∈ ["undefined", "null"] → IsAlternate none w.toList

/-- Text of what is handed on. Only texts are compared by a lone `!==`. -/
inductive Hands : Handed → List Char → Prop where
  | forward {x : String} : isIdentifier x.toList = true → Hands (.forward x) x.toList
  | choice {c : Expression} {yes : Json} {no : Option Json} {s x y p q r u : List Char} :
      Reads 1 c s → c.isCondition = true → (∀ n l, c = .compare true n l → ∃ v, l = .str v) →
      IsLiteral yes x → IsAlternate no y → Blank p → Blank q → Blank r → Blank u →
      Hands (.choice c yes no) (s ++ (p ++ '?' :: (q ++ (x ++ (r ++ ':' :: (u ++ y))))))

private theorem IsLiteral.operand?_eq {v : Json} {t : List Char} (h : IsLiteral v t) :
    operand? t = some v := by
  cases h with
  | str hq => simp only [operand?, hq.edged.trimmed.trim_eq, hq.stringLiteral?_eq, String.ofList_toList]
  | yes => rfl
  | no => rfl

private theorem IsLiteral.edged {v : Json} {t : List Char} (h : IsLiteral v t) : Edged t := by
  cases h with
  | str hq => exact hq.edged
  | yes => exact edged_of_isIdentifier (by decide)
  | no => exact edged_of_isIdentifier (by decide)

private theorem IsLiteral.paired {v : Json} {t : List Char} (h : IsLiteral v t) : Paired t := by
  have hs : Sealed ['?', ':'] t := by
    cases h with
    | str hq => exact hq.sealed
    | yes => exact sealed_name (by decide) (by decide)
    | no => exact sealed_name (by decide) (by decide)
  exact hs.paired (by simp) (by simp)

private theorem IsLiteral.not_absent {v : Json} {t : List Char} (h : IsLiteral v t) :
    (t == "undefined".toList || t == "null".toList) = false := by
  have hne {w : List Char} (hw : operand? w = none) : (t == w) = false := by
    rw [beq_eq_false_iff_ne]
    rintro rfl
    simp [h.operand?_eq] at hw
  rw [hne (by decide), hne (by decide), Bool.or_self]

private theorem absent_of_mem : ∀ w ∈ ["undefined", "null"],
    (w.toList == "undefined".toList || w.toList == "null".toList) = true := by decide

private theorem IsAlternate.edged {v : Option Json} {t : List Char} (h : IsAlternate v t) :
    Edged t := by
  cases h with
  | literal h => exact h.edged
  | absent hw =>
    have hall : ∀ w ∈ ["undefined", "null"], isIdentifier w.toList = true := by decide
    exact edged_of_isIdentifier (hall _ hw)

/-! ### Branches -/

section
variable {attributes : List Attribute} {env : String → Json} {c : Expression} {t : List Char}
  {d : String}

private theorem base_underCondition (t : List Char) (classes : List String) :
    (underCondition attributes t classes).base = [] := by
  rw [underCondition]
  split
  · rfl
  · split <;> rfl

/-- Classes under a condition are present when it is true. -/
theorem present_underCondition (h : Tests attributes env c t) {classes : List String}
    (hr : (underCondition attributes t classes).review = []) :
    (underCondition attributes t classes).Present (CodeHolds env) env d ↔
      d ∈ classes ∧ c.truth env = true := by
  by_cases hempty : classes = []
  · simp [underCondition, hempty, Extraction.not_present_empty]
  · rw [underCondition, if_neg (by simpa using hempty)] at hr ⊢
    split at hr
    · rename_i triggers hok
      rw [← anyHolds_classifyCondition h.reads h.isCondition h.no_props h.enumerated hok]
      constructor
      · rintro (hb | ⟨r, hmem, hholds, rfl⟩)
        · cases hb
        · obtain ⟨p, hp, hmem⟩ := List.mem_flatMap.1 hmem
          obtain ⟨cssClass, hclass, rfl⟩ := List.mem_map.1 hmem
          exact ⟨hclass, p, hp, hholds⟩
      · rintro ⟨hd, p, hp, hholds⟩
        exact .inr ⟨_, List.mem_flatMap.2 ⟨p, hp, List.mem_map.2 ⟨d, hd, rfl⟩⟩, hholds, rfl⟩
    · cases hr

private theorem branches_cons {classes : Json → List String} {problem : ReviewItem} {v : Json}
    {value : List Char} (hv : operand? value = some v) (rest : List (List Char × List Char)) :
    branches attributes classes problem ((t, value) :: rest) =
      (underCondition attributes t (classes v)).merge (branches attributes classes problem rest) := by
  rw [branches, hv]

/-- A conditional value gives the classes of the side that its condition selects. -/
theorem present_ternary {classes : Json → List String} {prop : String} {yes : Json}
    {no : Option Json} {x y : List Char} (h : Tests attributes env c t) (hx : IsLiteral yes x)
    (hy : IsAlternate no y) (hr : (ternary attributes classes prop t x y).review = []) :
    (ternary attributes classes prop t x y).Present (CodeHolds env) env d ↔
      ∃ v ∈ (Handed.choice c yes no).value? env, d ∈ classes v := by
  have htidy (t : List Char) (found : List String) : (underCondition attributes t found).Tidy :=
    tidy_of_base (base_underCondition t found)
  rw [ternary] at hr ⊢
  cases hy with
  | literal hy =>
    simp only [hy.not_absent, Bool.false_eq_true, if_false] at hr ⊢
    rw [branches_cons hx.operand?_eq, branches_cons hy.operand?_eq, branches] at hr ⊢
    simp only [Extraction.merge, List.append_eq_nil_iff] at hr
    rw [Extraction.present_merge ((htidy _ _).merge Extraction.tidy_empty),
      Extraction.present_merge Extraction.tidy_empty, present_underCondition h hr.1,
      present_underCondition h.negate hr.2.1]
    cases hc : c.truth env <;> simp [Handed.value?, Expression.truth, hc, Extraction.not_present_empty]
  | @absent w hw =>
    have habsent := absent_of_mem w hw
    simp only [habsent, if_true] at hr ⊢
    rw [branches_cons hx.operand?_eq, branches] at hr ⊢
    simp only [Extraction.merge, List.append_eq_nil_iff] at hr
    rw [Extraction.present_merge Extraction.tidy_empty, present_underCondition h hr.1]
    cases hc : c.truth env <;> simp [Handed.value?, hc, Extraction.not_present_empty]

private theorem enumerated_of_takes {x v : String}
    (h : ∀ a ∈ attributes, a.name = x → a.Takes (env x)) : Enumerated attributes env x (.str v) := by
  have hfound {a : Attribute} (ha : enumAttribute? attributes x = some a) :
      a.hasType .number = false ∧ ∃ w ∈ a.enumValues, env x = .str w := by
    have hsome := List.find?_some ha
    simp only [Bool.and_eq_true, beq_iff_eq, Bool.not_eq_true', List.isEmpty_eq_false_iff] at hsome
    have htakes := h a (List.mem_of_find?_eq_some ha) hsome.1
    generalize env x = held at htakes
    cases htakes with
    | value hnumber hmem => exact ⟨hnumber, _, hmem, rfl⟩
    | flag b hvalues => exact absurd hvalues hsome.2
  have hoperand {a : Attribute} (hnumber : a.hasType .number = false) (w : String) :
      a.enumOperand w = .str w := by simp [Attribute.enumOperand, hnumber]
  refine ⟨fun a ha => ?_, fun a ha w _ => ?_⟩
  · obtain ⟨hnumber, w, hmem, hw⟩ := hfound ha
    exact ⟨w, hmem, by rw [hoperand hnumber, hw]⟩
  · rw [hoperand (hfound ha).1]
    exact .str

/-- An attribute that is handed on gives the classes of the value that it holds. -/
theorem present_attributeValue {classes : Json → List String} {x : String}
    (hknown : ∃ a ∈ attributes, a.name = x)
    (htakes : ∀ a ∈ attributes, a.name = x → a.Takes (env x)) :
    (attributeValue attributes classes x).Present (CodeHolds env) env d ↔ d ∈ classes (env x) := by
  obtain ⟨a, ha⟩ : ∃ a, Attribute.find? attributes x = some a := by
    obtain ⟨a, ha, hx⟩ := hknown
    exact Option.isSome_iff_exists.1 (List.find?_isSome.2 ⟨a, ha, by simpa using hx⟩)
  have hname : a.name = x := by simpa using List.find?_some ha
  have hvalue := htakes a (List.mem_of_find?_eq_some ha) hname
  generalize hv : env x = held at hvalue
  simp only [attributeValue, ha]
  cases hvalue with
  | @value v hnumber hmem =>
    have hoperand (w : String) : a.enumOperand w = .str w := by simp [Attribute.enumOperand, hnumber]
    rw [if_pos (by simpa using List.ne_nil_of_mem hmem)]
    constructor
    · rintro (hb | ⟨r, hr, hholds, rfl⟩)
      · cases hb
      · obtain ⟨w, -, hr⟩ := List.mem_flatMap.1 hr
        obtain ⟨cssClass, hclass, rfl⟩ := List.mem_map.1 hr
        simp only [Trigger.Holds, hv, hoperand, Json.strictEquals, beq_iff_eq] at hholds
        exact hholds ▸ hclass
    · intro hd
      refine .inr ⟨_, List.mem_flatMap.2 ⟨v, hmem, List.mem_map.2 ⟨d, hd, rfl⟩⟩, ?_, rfl⟩
      simp [Trigger.Holds, hv, hoperand, Json.strictEquals]
  | flag b hvalues hboolean =>
    rw [if_neg (by simp [hvalues]), if_pos hboolean]
    simp only [Extraction.Present, List.mem_append, List.mem_map, List.not_mem_nil, false_or]
    constructor
    · rintro ⟨r, ⟨cssClass, hclass, rfl⟩ | ⟨cssClass, hclass, rfl⟩, hholds, rfl⟩ <;>
        simp only [Trigger.Holds, hv, Json.isTruthy] at hholds <;> exact hholds ▸ hclass
    · intro hd
      cases b with
      | true => exact ⟨_, .inl ⟨d, hd, rfl⟩, by simp [Trigger.Holds, hv, Json.isTruthy], rfl⟩
      | false => exact ⟨_, .inr ⟨d, hd, rfl⟩, by simp [Trigger.Holds, hv, Json.isTruthy], rfl⟩

end

/-! ### Properties of the root -/

/-- Names of properties that are never looked at for classes. -/
def isSkipped (name : String) : Bool :=
  skippedProps.contains name || startsWith name.toList "on".toList

/-- A property of the root that hands a value on. -/
structure Handing where
  prop : String
  code : String
  handed : Handed
  hands : Hands handed (trim code.toList)
  no_props : ¬ propsHead <:+: code.toList
  used : isSkipped prop = false

def Handing.property (h : Handing) : Property := ⟨h.prop, .expression h.code⟩

def Handing.IsFree (h : Handing) (skip : List String) : Prop :=
  h.prop ∉ skip ∧ String.ofList (trim h.code.toList) ∉ skip

/-- The attributes that decide about a value are there and hold one of their own. -/
structure Handing.Assigned (h : Handing) (attributes : List Attribute) (env : String → Json) :
    Prop where
  known : ∀ x ∈ h.handed.names, ∃ a ∈ attributes, a.name = x
  takes : ∀ x ∈ h.handed.names, ∀ a ∈ attributes, a.name = x → a.Takes (env x)

section
variable {attributes : List Attribute} {env : String → Json} {lookup : ClassLookup}
  {base skip : List String} {d : String}

private theorem base_branches {classes : Json → List String} (problem : ReviewItem)
    (cases : List (List Char × List Char)) :
    (branches attributes classes problem cases).base = [] := by
  induction cases with
  | nil => rfl
  | cons x rest ih =>
    obtain ⟨condition, value⟩ := x
    rw [branches]
    split
    · rfl
    · simp [Extraction.merge, base_underCondition, ih, appendNew]

private theorem tidy_ofProp (p : Property) : (ofProp attributes lookup base skip p).Tidy := by
  have hvalue (classes : Json → List String) (x : String) :
      (attributeValue attributes classes x).base = [] := by
    rw [attributeValue]
    split
    · rfl
    · split
      · rfl
      · split <;> rfl
  refine tidy_of_base ?_
  rw [ofProp]
  split
  · rfl
  · split
    · dsimp only
      split
      · rfl
      · split
        · exact base_branches _ _
        · split
          · exact hvalue _ _
          · rfl
    · rfl

private theorem ofProp_handing (h : Handing) (hfree : h.IsFree skip) :
    ofProp attributes lookup base skip h.property =
      match splitTernary? (trim h.code.toList) with
      | some (condition, yes, no) =>
        ternary attributes (newClasses lookup base h.prop) h.prop condition yes no
      | none =>
        if isIdentifier (trim h.code.toList) then
          attributeValue attributes (newClasses lookup base h.prop) (String.ofList (trim h.code.toList))
        else {} := by
  have hstrip : stripProps (trim h.code.toList) = trim h.code.toList :=
    stripProps_of_not_infix fun hi => h.no_props (hi.trans (infix_trim _))
  have hprop : (skippedProps.contains h.prop || startsWith h.prop.toList "on".toList ||
      skip.contains h.prop) = false := by
    have hused : (skippedProps.contains h.prop || startsWith h.prop.toList "on".toList) = false := h.used
    rw [hused]
    simpa using hfree.1
  have hcode : skip.contains (String.ofList (trim h.code.toList)) = false := by simpa using hfree.2
  rcases hcut : splitTernary? (trim h.code.toList) with _ | ⟨condition, yes, no⟩ <;>
    simp only [Handing.property, ofProp, hprop, hstrip, hcode, hcut, Bool.false_eq_true, if_false]

/-- A property of the root gives the classes that its value adds. -/
theorem present_ofProp (h : Handing) (hfree : h.IsFree skip) (hvalues : h.Assigned attributes env)
    (hr : (ofProp attributes lookup base skip h.property).review = []) :
    (ofProp attributes lookup base skip h.property).Present (CodeHolds env) env d ↔
      ∃ v ∈ h.handed.value? env, d ∈ newClasses lookup base h.prop v := by
  rw [ofProp_handing h hfree] at hr ⊢
  have hknown := hvalues.known
  have htakes := hvalues.takes
  have hprops : ¬ propsHead <:+: trim h.code.toList := fun hi =>
    h.no_props (hi.trans (infix_trim _))
  have hands := h.hands
  generalize trim h.code.toList = text at hands hprops hr ⊢
  generalize h.handed = handed at hands hknown htakes ⊢
  cases hands with
  | @forward x hx =>
    simp only [splitTernary?_of_isIdentifier hx, hx, if_true, String.ofList_toList]
    rw [present_attributeValue (hknown x (by simp [Handed.names]))
      (htakes x (by simp [Handed.names]))]
    simp [Handed.value?]
  | @choice c yes no s x y p q r u hc hcondition hlone hx hy hp hq hr' hu =>
    have hsplit := splitTernary?_parts hc.edged (hc.sealed (by decide) fun _ => by decide) hx.edged
      hx.paired hy.edged hp hq hr' hu
    simp only [hsplit] at hr ⊢
    refine present_ternary ⟨hc.mono (by omega), hcondition, fun hi => hprops ?_, fun n l he => ?_⟩ hx
      hy hr
    · exact hi.trans (List.prefix_append _ _).isInfix
    · obtain ⟨v, rfl⟩ := hlone n l he
      refine enumerated_of_takes fun a ha hn => htakes n ?_ a ha hn
      simp [Handed.names, he, Expression.names]

/-- For every assignment of values to the attributes, the base classes with those whose trigger holds
are the base classes with those of the base component for every value that is handed on, provided that
nothing is left for review. A value that is absent adds nothing. -/
theorem extract_follows_values (handings : List Handing) (hfree : ∀ h ∈ handings, h.IsFree skip)
    (hvalues : ∀ h ∈ handings, h.Assigned attributes env)
    (hr : (extract attributes lookup base (handings.map Handing.property) skip).review = []) :
    d ∈ base ∨ (extract attributes lookup base (handings.map Handing.property) skip).Present
        (CodeHolds env) env d ↔
      d ∈ base ∨ ∃ h ∈ handings, ∃ v ∈ h.handed.value? env, d ∈ lookup h.prop v := by
  rw [extract, List.map_map, Function.comp_def] at hr ⊢
  have hone : ∀ h ∈ handings,
      ((ofProp attributes lookup base skip h.property).Present (CodeHolds env) env d ↔
        ∃ v ∈ h.handed.value? env, d ∈ newClasses lookup base h.prop v) := fun h hh =>
    present_ofProp h (hfree h hh) (hvalues h hh) (Extraction.review_mergeAll_map hr h hh)
  rw [Extraction.present_mergeAll_map fun h _ => tidy_ofProp h.property]
  have hnew {p : String} {v : Json} : d ∈ newClasses lookup base p v ↔ d ∈ lookup p v ∧ d ∉ base := by
    simp [newClasses]
  constructor
  · rintro (hd | ⟨h, hh, hpresent⟩)
    · exact .inl hd
    · obtain ⟨v, hv, hd⟩ := (hone h hh).1 hpresent
      exact .inr ⟨h, hh, v, hv, (hnew.1 hd).1⟩
  · rintro (hd | ⟨h, hh, v, hv, hd⟩)
    · exact .inl hd
    · by_cases hbase : d ∈ base
      · exact .inl hbase
      · exact .inr ⟨h, hh, (hone h hh).2 ⟨v, hv, hnew.2 ⟨hd, hbase⟩⟩⟩

end

/-! ### A note -/

/-- Attributes `kind: 'info' | 'error'` and `busy: boolean`. -/
def noteAttributes : List Attribute :=
  [{ name := "kind", types := [.enum, .string], enumValues := ["info", "error"] },
    { name := "busy", types := [.boolean] }]

def noteValue (name : String) : Json := if name = "kind" then .str "error" else .bool false

/-- `type={kind}` -/
def kindHandedOn : Handing where
  prop := "type"
  code := "kind"
  handed := .forward "kind"
  hands := .forward (by decide)
  no_props := not_infix_of_notMem (by decide)
  used := by decide

def toneCode : List Char := "kind !== 'info' ? 'alert' : undefined".toList

def toneChoice : Handed := .choice (.compare true "kind" (.str "info")) (.str "alert") none

theorem hands_toneChoice : Hands toneChoice toneCode := by
  have hinfo : Operand (.str "info") ('\x27' :: ("info".toList ++ ['\x27'])) :=
    .str (quoted_of_plain (.inl rfl) (by decide) (by decide))
  have halert : IsLiteral (.str "alert") ('\x27' :: ("alert".toList ++ ['\x27'])) :=
    .str (quoted_of_plain (.inl rfl) (by decide) (by decide))
  have hkind : Reads 1 (.compare true "kind" (.str "info")) _ :=
    .compare (by omega) (by decide) (by decide) hinfo blank_space blank_space
  exact Hands.choice hkind rfl (fun n l he => ⟨"info", by cases he; rfl⟩) halert
    (.absent (w := "undefined") (by decide)) blank_space blank_space blank_space blank_space

/-- `tone={kind !== 'info' ? 'alert' : undefined}` -/
def toneHandedOn : Handing where
  prop := "tone"
  code := String.ofList toneCode
  handed := toneChoice
  hands := by
    have htrim : trim (String.ofList toneCode).toList = toneCode := by decide
    exact htrim ▸ hands_toneChoice
  no_props := not_infix_of_notMem (by decide)
  used := by decide

def noteLookup : ClassLookup := fun prop value => ["note--" ++ prop ++ "-" ++ literalKey value]

/-- A note that hands on its kind as it is, and a tone that depends on the kind. -/
theorem note_follows_values :
    (extract noteAttributes noteLookup ["note"] ([kindHandedOn, toneHandedOn].map Handing.property)
      []).review = [] ∧
      ∀ d, d ∈ ["note"] ∨ (extract noteAttributes noteLookup ["note"]
          ([kindHandedOn, toneHandedOn].map Handing.property) []).Present (CodeHolds noteValue)
          noteValue d ↔
        d ∈ ["note"] ∨ ∃ h ∈ [kindHandedOn, toneHandedOn], ∃ v ∈ h.handed.value? noteValue,
          d ∈ noteLookup h.prop v := by
  have hreview : (extract noteAttributes noteLookup ["note"]
      ([kindHandedOn, toneHandedOn].map Handing.property) []).review = [] := by
    rw [← List.isEmpty_iff]
    decide
  have htakes : ∀ a ∈ noteAttributes, a.Takes (noteValue a.name) := by
    simp only [noteAttributes, List.forall_mem_cons, List.not_mem_nil, false_implies, implies_true,
      and_true]
    exact ⟨.value (v := "error") (by decide) (by decide), .flag false rfl rfl⟩
  have hassigned : ∀ h ∈ [kindHandedOn, toneHandedOn], h.Assigned noteAttributes noteValue := by
    have hnames : ∀ h ∈ [kindHandedOn, toneHandedOn], h.handed.names = ["kind"] := by
      simp [kindHandedOn, toneHandedOn, toneChoice, Handed.names, Expression.names]
    intro h hh
    refine ⟨fun x hx => ?_, fun x _ a ha hname => hname ▸ htakes a ha⟩
    rw [hnames h hh, List.mem_singleton] at hx
    exact ⟨_, List.mem_cons_self, hx.symm⟩
  have hfree : ∀ h ∈ [kindHandedOn, toneHandedOn], h.IsFree [] := fun h _ => ⟨nofun, nofun⟩
  exact ⟨hreview, fun d => extract_follows_values _ hfree hassigned hreview⟩

end Forwarded
end JsxToJinja
